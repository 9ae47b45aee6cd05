import Marigold.NotePool.CommitmentStore
import Marigold.NotePool.Store
import Marigold.Smt.Aborted

/-!
# Import of the pruning point's pool

`import_pruning_point_pool_state` of `consensus/mod.rs`: the entries staged chunk by chunk become the
virtual pool, and the tree over them is rebuilt in the same pass and compared with the header.
-/

namespace Marigold.Consensus

open Lib Smt NotePool

inductive PruningImportError where
  | poolStoreError (error : StreamError)
  | poolRootMismatch (expected computed : Hash)
  deriving DecidableEq, Repr

/-- The stores of the virtual state that hold the pool. -/
structure PoolStores where
  poolState : DbNotePoolStore
  poolSmt : DbNotePoolSmtStore
  poolDiff : PoolDiff

/-- `clear_pruning_pool_state`, then `append_imported_pruning_point_pool_entries` for each chunk. -/
def stageChunks (staged : DbNotePoolStore) (chunks : List (List (Hash × PoolEntry))) :
    DbNotePoolStore :=
  chunks.foldl DbNotePoolStore.writeMany staged.clear

def copyChunk : Nat := 1024

/-- The copy to the virtual pool: what has been written and what is in the buffer. -/
structure Copying where
  poolState : DbNotePoolStore
  copyBuf : List (Hash × PoolEntry)

/-- A full buffer is written out. -/
def Copying.push (copying : Copying) (row : Hash × PoolEntry) : Copying :=
  let copyBuf := copying.copyBuf ++ [row]
  if copyChunk ≤ copyBuf.length then ⟨copying.poolState.writeMany copyBuf, []⟩
  else ⟨copying.poolState, copyBuf⟩

def Copying.flush (copying : Copying) : DbNotePoolStore :=
  if copying.copyBuf = [] then copying.poolState else copying.poolState.writeMany copying.copyBuf

def stagedLeaves (H : Hashers) (staged : DbNotePoolStore) : List CollapsedLeaf :=
  staged.iterator.map fun row => ⟨row.1, leafHashEntry H row.2⟩

/-- Rows are copied as the builder takes them; a stream error returns with what is written by then, a
wrong root clears both stores. -/
def importPruningPointPoolState (H : Hashers) (staged : DbNotePoolStore) (stores : PoolStores)
    (expectedRoot : Hash) (entryCount : Nat) : Except PruningImportError Unit × PoolStores :=
  let poolState := stores.poolState.clear
  let poolSmt := stores.poolSmt.clear H
  let leaves := stagedLeaves H staged
  let pulled := (feedAll (smtHasher H) (.new (smtHasher H) entryCount) leaves).2.2
  let copying := (staged.iterator.take pulled).foldl Copying.push ⟨poolState, []⟩
  match poolSmt.rebuildFromSortedLeaves H entryCount leaves with
  | (.error error, poolSmt) => (.error (.poolStoreError error), ⟨copying.poolState, poolSmt, .empty⟩)
  | (.ok computedRoot, poolSmt) =>
    if computedRoot ≠ expectedRoot then
      (.error (.poolRootMismatch expectedRoot computedRoot), ⟨copying.poolState.clear, poolSmt.clear H, .empty⟩)
    else (.ok (), ⟨copying.flush, poolSmt, .empty⟩)

/-- On success the streamed entries and the expected root, on an error nothing. -/
def AllOrNothing (H : Hashers) (streamed : List (Hash × PoolEntry)) (expectedRoot : Hash) :
    Except PruningImportError Unit × PoolStores → Prop
  | (.ok (), stores) =>
    (∀ sn entry, stores.poolState.getNote sn = some entry ↔ (sn, entry) ∈ streamed) ∧
      stores.poolSmt.currentRoot H = expectedRoot
  | (.error _, stores) =>
    stores.poolState = .empty ∧ stores.poolSmt.access = ∅ ∧ stores.poolSmt.currentRoot H = emptyRoot (smtHasher H)

/-! ## The copy -/

section Copy

variable {store : DbNotePoolStore} {rows : List (Hash × PoolEntry)}

theorem writeMany_append (store : DbNotePoolStore) (a b : List (Hash × PoolEntry)) :
    store.writeMany (a ++ b) = (store.writeMany a).writeMany b := by
  simp [DbNotePoolStore.writeMany, DbNotePoolStore.noteRows, DbNotePoolStore.lockRows, Map.putMany, Map.column]

theorem stageChunks_eq (staged : DbNotePoolStore) (chunks : List (List (Hash × PoolEntry))) :
    stageChunks staged chunks = DbNotePoolStore.empty.writeMany chunks.flatten := by
  suffices folded : ∀ store : DbNotePoolStore,
      chunks.foldl DbNotePoolStore.writeMany store = store.writeMany chunks.flatten from folded _
  intro store
  induction chunks generalizing store with
  | nil => rfl
  | cons chunk rest ih => rw [List.foldl_cons, ih, List.flatten_cons, writeMany_append]

/-- Full chunks have been written, the rest is in the buffer. -/
structure Copied (rows : List (Hash × PoolEntry)) (copying : Copying) : Prop where
  room : copying.copyBuf.length < copyChunk
  split : ∃ done, rows = done ++ copying.copyBuf ∧ copying.poolState = DbNotePoolStore.empty.writeMany done ∧
    (done = [] ∨ copyChunk ≤ done.length)

theorem Copied.push {copying : Copying} (copied : Copied rows copying) (row : Hash × PoolEntry) :
    Copied (rows ++ [row]) (copying.push row) := by
  obtain ⟨done, split, written, chunks⟩ := copied.split
  unfold Copying.push
  simp only
  split
  next full =>
    refine ⟨by simp [copyChunk], rows ++ [row], by simp, ?_, .inr ?_⟩
    · rw [split, written, List.append_assoc, writeMany_append _ done]
    · rw [split]
      simp only [List.length_append] at full ⊢
      omega
  next room =>
    exact ⟨by simpa using room, done, by simp [split], written, chunks⟩

theorem copied_rows (rows : List (Hash × PoolEntry)) : Copied rows (rows.foldl Copying.push ⟨.empty, []⟩) := by
  induction rows using List.reverseRecOn with
  | nil => exact ⟨by decide, [], rfl, rfl, .inl rfl⟩
  | append_singleton rows row ih =>
    rw [List.foldl_append]
    exact ih.push row

theorem Copied.flush {copying : Copying} (copied : Copied rows copying) :
    copying.flush = DbNotePoolStore.empty.writeMany rows := by
  obtain ⟨done, split, written, -⟩ := copied.split
  unfold Copying.flush
  split
  next bare => rw [written, split, bare, List.append_nil]
  · rw [written, split, writeMany_append]

theorem writeMany_eq_empty (rows : List (Hash × PoolEntry)) :
    DbNotePoolStore.empty.writeMany rows = .empty ↔ rows = [] := by
  constructor
  · intro empty
    have notes := Map.putMany_eq_empty.mp (congrArg DbNotePoolStore.access empty)
    exact List.map_eq_nil_iff.mp notes
  · rintro rfl
    rfl

theorem Copied.poolState_eq_empty {copying : Copying} (copied : Copied rows copying) :
    copying.poolState = .empty ↔ rows.length < copyChunk := by
  obtain ⟨done, split, written, chunks⟩ := copied.split
  have room := copied.room
  rw [written, writeMany_eq_empty, split, List.length_append]
  constructor
  · rintro rfl
    simpa using room
  · intro few
    rcases chunks with bare | full
    · exact bare
    · omega

end Copy

/-! ## The staged entries -/

/-- No serial is streamed with two different entries. -/
def OneEntryPerSerial (streamed : List (Hash × PoolEntry)) : Prop :=
  ∀ sn a b, (sn, a) ∈ streamed → (sn, b) ∈ streamed → a = b

section Staged

variable {staged : DbNotePoolStore}

theorem mem_iterator {sn : Hash} {entry : PoolEntry} :
    (sn, entry) ∈ staged.iterator ↔ staged.getNote sn = some entry := by
  rw [DbNotePoolStore.iterator, List.mem_map, DbNotePoolStore.getNote, Option.map_eq_some_iff]
  constructor
  · rintro ⟨⟨sn', note⟩, there, pair⟩
    cases pair
    exact ⟨note, Map.mem_rows.mp there, rfl⟩
  · rintro ⟨note, found, rfl⟩
    exact ⟨(sn, note), Map.mem_rows.mpr found, rfl⟩

theorem stagedLeaves_ascending (H : Hashers) (staged : DbNotePoolStore) : Ascending (stagedLeaves H staged) := by
  have sorted := staged.access.pairwise_rows
  have distinct := List.pairwise_map.mp staged.access.nodup_rows
  refine List.pairwise_map.mpr (List.pairwise_map.mpr ?_)
  refine (sorted.and distinct).imp fun {a b} both => ?_
  exact BitVec.lt_def.mpr (Nat.lt_of_le_of_ne (BitVec.le_def.mp both.1)
    fun equal => both.2 (BitVec.eq_of_toNat_eq equal))

theorem stagedLeaves_length (H : Hashers) (staged : DbNotePoolStore) :
    (stagedLeaves H staged).length = staged.iterator.length := List.length_map _

theorem stagedLeaves_keys (H : Hashers) (staged : DbNotePoolStore) :
    (stagedLeaves H staged).map CollapsedLeaf.laneKey = staged.iterator.map Prod.fst := by
  simp [stagedLeaves]

theorem getNote_writeMany {rows : List (Hash × PoolEntry)} (agree : OneEntryPerSerial rows) (sn : Hash) :
    (DbNotePoolStore.empty.writeMany rows).getNote sn = Map.written rows sn := by
  have keeps : KeepsLocks ∅ rows := by
    intro sn last written unlocked
    refine ⟨fun entry there => ?_, fun old live => nomatch live⟩
    rw [agree sn entry last there (Map.mem_of_written written), unlocked]
  have start : DbNotePoolStore.empty.Refines ∅ := ⟨fun _ => rfl, fun _ => rfl⟩
  rw [(start.writeMany keeps).getNote, Map.lookup_putMany]
  exact Option.or_none

theorem getNote_copy (staged : DbNotePoolStore) :
    (DbNotePoolStore.empty.writeMany staged.iterator).getNote = staged.getNote := by
  have agree : OneEntryPerSerial staged.iterator := fun sn a b first second =>
    Option.some.inj ((mem_iterator.mp first).symm.trans (mem_iterator.mp second))
  funext sn
  rw [getNote_writeMany agree]
  exact Map.written_of_graph fun entry => mem_iterator

/-- The staged store holds exactly the streamed entries only if they agree on each serial. -/
theorem stageChunks_holds_iff (staged : DbNotePoolStore) (chunks : List (List (Hash × PoolEntry))) :
    (∀ sn entry, (stageChunks staged chunks).getNote sn = some entry ↔ (sn, entry) ∈ chunks.flatten) ↔
      OneEntryPerSerial chunks.flatten := by
  rw [stageChunks_eq]
  constructor
  · intro holds sn a b first second
    exact Option.some.inj (((holds sn a).mpr first).symm.trans ((holds sn b).mpr second))
  · intro agree sn entry
    rw [getNote_writeMany agree]
    refine ⟨Map.mem_of_written, fun there => Map.written_eq_some there fun entry' there' => ?_⟩
    exact agree sn entry' entry there' there

end Staged

/-! ## The import -/

section Import

variable {H : Hashers} {staged : DbNotePoolStore} {stores : PoolStores} {expectedRoot : Hash}
  {entryCount : Nat} {streamed : List (Hash × PoolEntry)}

/-- A stream of the announced length is compared with the header; either way the stores are right. -/
theorem import_exact (counted : staged.iterator.length = entryCount) :
    AllOrNothing H streamed expectedRoot (importPruningPointPoolState H staged stores expectedRoot entryCount) ↔
      ((importPruningPointPoolState H staged stores expectedRoot entryCount).1 = .ok () →
        ∀ sn entry, staged.getNote sn = some entry ↔ (sn, entry) ∈ streamed) := by
  obtain ⟨builder, fed, final⟩ := feedAll_exact (smtHasher H) (stagedLeaves_ascending H staged)
  rw [stagedLeaves_length, counted] at fed
  obtain ⟨root, rooted⟩ := Option.isSome_iff_exists.mp final
  have copied : Copied staged.iterator
      (staged.iterator.foldl Copying.push ⟨stores.poolState.clear, []⟩) := copied_rows _
  have all : staged.iterator.take entryCount = staged.iterator := List.take_of_length_le (le_of_eq counted)
  simp only [importPruningPointPoolState, DbNotePoolSmtStore.rebuildFromSortedLeaves, fed,
    StreamingSmtBuilder.finish, rooted, all]
  by_cases same : root = expectedRoot
  · simp only [same, ne_eq, not_true_eq_false, if_false, AllOrNothing, copied.flush, getNote_copy, forall_const]
    exact and_iff_left rfl
  · simp only [ne_eq, same, not_false_eq_true, if_true, AllOrNothing, reduceCtorEq, false_implies, iff_true]
    exact ⟨rfl, rfl, rfl⟩

/-- After a stream error the stores hold what was written until then. -/
theorem import_failed {error : Option StreamError} {builder : StreamingSmtBuilder} {pulled : Nat}
    (fed : feedAll (smtHasher H) (.new (smtHasher H) entryCount) (stagedLeaves H staged) = (error, builder, pulled))
    (failed : error.isSome ∨ builder.root = none) :
    AllOrNothing H streamed expectedRoot (importPruningPointPoolState H staged stores expectedRoot entryCount) ↔
      (staged.iterator.take pulled).length < copyChunk ∧ builder.sink = [] := by
  have copied : Copied (staged.iterator.take pulled)
      ((staged.iterator.take pulled).foldl Copying.push ⟨stores.poolState.clear, []⟩) := copied_rows _
  rw [← copied.poolState_eq_empty, ← Map.putMany_eq_empty]
  cases error with
  | some error =>
    simp only [importPruningPointPoolState, DbNotePoolSmtStore.rebuildFromSortedLeaves, fed, AllOrNothing]
    exact and_congr_right fun _ => and_iff_left rfl
  | none =>
    have missing : builder.root = none := by simpa using failed
    simp only [importPruningPointPoolState, DbNotePoolSmtStore.rebuildFromSortedLeaves, fed,
      StreamingSmtBuilder.finish, missing, AllOrNothing]
    exact and_congr_right fun _ => and_iff_left rfl

/-- A stream of another length than announced leaves nothing only if none was announced, or if it was
short and no two entries were merged. -/
theorem import_miscounted (counted : staged.iterator.length ≠ entryCount) :
    AllOrNothing H streamed expectedRoot (importPruningPointPoolState H staged stores expectedRoot entryCount) ↔
      entryCount = 0 ∨ (staged.iterator.length < entryCount ∧ staged.iterator.length < copyChunk ∧
        Deepening (staged.iterator.map Prod.fst)) := by
  have ascending := stagedLeaves_ascending H staged
  rw [← stagedLeaves_length H] at counted
  rcases Nat.eq_zero_or_pos entryCount with rfl | positive
  · have listed : stagedLeaves H staged ≠ [] := fun none => counted (by rw [none]; rfl)
    rw [import_failed (feedAll_unannounced (smtHasher H) listed) (.inl rfl)]
    refine iff_of_true ⟨?_, rfl⟩ (.inl rfl)
    exact lt_of_le_of_lt (List.length_take_le 1 _) (by decide)
  · rcases Nat.lt_or_gt_of_ne counted with short | excess
    · obtain ⟨builder, fed, missing, bare⟩ := feedAll_short (smtHasher H) ascending short
      rw [stagedLeaves_length] at fed short
      rw [stagedLeaves_keys] at bare
      rw [import_failed fed (.inr missing), bare, List.take_length]
      simp [short, Nat.ne_of_gt positive]
    · obtain ⟨builder, fed, some'⟩ := feedAll_over (smtHasher H) ascending positive excess
      rw [import_failed fed (.inl rfl)]
      refine iff_of_false (fun clean => some' clean.2) ?_
      rw [stagedLeaves_length] at excess
      omega

end Import

/-- Four entries are streamed and announced, the last of them the first one again. -/
def repeatedEntry : List (List (Hash × PoolEntry)) :=
  [[(0, plainNote), (1, plainNote)], [(1#256 <<< 255, plainNote), (0, plainNote)]]

end Marigold.Consensus
