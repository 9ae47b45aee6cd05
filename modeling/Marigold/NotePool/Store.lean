import Marigold.Lib.Table
import Marigold.NotePool.Diff

/-!
# The stored pool

`consensus/src/model/stores/notepool.rs`: the pool as two tables, the notes and the locks of the
locked ones, under the same serials.
-/

namespace Marigold.NotePool

open Lib

structure DbNotePoolStore where
  access : Map Hash NewNote
  /-- The lock of every locked note. -/
  locks : Map Hash NoteLock

namespace DbNotePoolStore

def empty : DbNotePoolStore := ⟨∅, ∅⟩

/-- `clear`: both tables emptied. -/
def clear (_ : DbNotePoolStore) : DbNotePoolStore := empty

variable (store : DbNotePoolStore)

def entry (sn : Hash) (note : NewNote) : PoolEntry :=
  ⟨note, store.locks.lookup sn⟩

def getNote : PoolView := fun sn =>
  (store.access.lookup sn).map (store.entry sn)

def iterator : List (Hash × PoolEntry) :=
  store.access.rows.map fun row => (row.1, store.entry row.1 row.2)

def seekIterator (fromSn : Option Hash) (limit : Nat) (skipFirst : Bool) : List (Hash × PoolEntry) :=
  (store.access.seek fromSn limit skipFirst).map fun row => (row.1, store.entry row.1 row.2)

variable (entries : List (Hash × PoolEntry))

/-- The rows a list of entries puts into the notes table. -/
def noteRows : List (Hash × NewNote) :=
  entries.map fun row => (row.1, row.2.note)

/-- The rows it puts into the locks table: none for an unlocked note. -/
def lockRows : List (Hash × NoteLock) :=
  Map.column PoolEntry.lock entries

def writeMany : DbNotePoolStore where
  access := store.access.putMany (noteRows entries)
  locks := store.locks.putMany (lockRows entries)

def apply (diff : PoolDiff) : DbNotePoolStore where
  access := Map.putMany (store.access.deleteMany diff.remove.keys) (noteRows (diff.add.pairs))
  locks := Map.putMany (store.locks.deleteMany diff.remove.keys) (lockRows (diff.add.pairs))

end DbNotePoolStore

/-! ## One map -/

/-- A call that changes the store. -/
inductive StoreCall where
  | writeMany (entries : List (Hash × PoolEntry))
  | apply (diff : PoolDiff)

namespace StoreCall

def onStore (store : DbNotePoolStore) : StoreCall → DbNotePoolStore
  | writeMany entries => store.writeMany entries
  | apply diff => store.apply diff

/-- What the call means for a single map from serial to entry. -/
def onMap (pool : PoolCollection) : StoreCall → PoolCollection
  | writeMany entries => pool.putMany entries
  | apply diff => pool.writeDiff diff

end StoreCall

/-- Where a direct write leaves a serial unlocked, neither the pool nor an earlier entry of the same
write has it locked. -/
def KeepsLocks (pool : PoolCollection) (entries : List (Hash × PoolEntry)) : Prop :=
  ∀ sn last, Map.written entries sn = some last → last.lock = none →
    (∀ entry, (sn, entry) ∈ entries → entry.lock = none) ∧ ∀ old, pool.lookup sn = some old → old.lock = none

/-- A diff has to be valid over the pool; a direct write must not unlock a note. -/
def StoreCall.Admitted (pool : PoolCollection) : StoreCall → Prop
  | writeMany entries => KeepsLocks pool entries
  | apply diff => diff.ValidOver pool.lookup

def AllAdmitted : PoolCollection → List StoreCall → Prop
  | _, [] => True
  | pool, call :: calls => call.Admitted pool ∧ AllAdmitted (call.onMap pool) calls

namespace DbNotePoolStore

/-- Every lock row belongs to a live note. -/
def LocksLive (store : DbNotePoolStore) : Prop := ∀ sn ∈ store.locks, sn ∈ store.access

/-- The map the store stands for. -/
def toMap (store : DbNotePoolStore) : PoolCollection := store.access.mapValues store.entry

/-- The store reads as the pool and holds no lock besides. -/
structure Refines (store : DbNotePoolStore) (pool : PoolCollection) : Prop where
  notes : ∀ sn, store.access.lookup sn = (pool.lookup sn).map PoolEntry.note
  locks : ∀ sn, store.locks.lookup sn = (pool.lookup sn).bind PoolEntry.lock

variable {store : DbNotePoolStore} {pool : PoolCollection}

theorem refines_toMap (live : store.LocksLive) : store.Refines store.toMap where
  notes sn := by
    rw [toMap, Map.lookup_mapValues, Option.map_map]
    exact (Option.map_id' ..).symm
  locks sn := by
    rw [toMap, Map.lookup_mapValues]
    cases found : store.access.lookup sn with
    | some note => rfl
    | none =>
      -- A dead serial has no lock row either.
      have dead : sn ∉ store.locks := fun locked =>
        AList.lookup_eq_none.mp found (live sn locked)
      exact AList.lookup_eq_none.mpr dead

section

variable (refines : store.Refines pool)

include refines

theorem Refines.getNote (sn : Hash) : store.getNote sn = pool.lookup sn := by
  rw [DbNotePoolStore.getNote, refines.notes]
  cases found : pool.lookup sn with
  | none => rfl
  | some entry => simp [DbNotePoolStore.entry, refines.locks, found]

theorem Refines.locksLive : store.LocksLive := by
  intro sn locked
  have row := AList.lookup_isSome.mpr locked
  rw [refines.locks] at row
  apply AList.lookup_isSome.mp
  rw [refines.notes]
  cases found : pool.lookup sn with
  | none => simp [found] at row
  | some entry => rfl

theorem Refines.seekIterator (fromSn : Option Hash) (limit : Nat) (skipFirst : Bool) :
    store.seekIterator fromSn limit skipFirst = pool.seek fromSn limit skipFirst :=
  (Map.seek_map store.entry (fun sn => (refines.getNote sn).symm) fromSn limit skipFirst).symm

theorem Refines.writeMany {entries : List (Hash × PoolEntry)} (keeps : KeepsLocks pool entries) :
    (store.writeMany entries).Refines (pool.putMany entries) where
  notes sn := by
    rw [DbNotePoolStore.writeMany, Map.lookup_putMany, Map.lookup_putMany, noteRows, Map.written_map, refines.notes]
    cases Map.written entries sn <;> rfl
  locks sn := by
    rw [DbNotePoolStore.writeMany, Map.lookup_putMany, Map.lookup_putMany, refines.locks]
    cases last : Map.written entries sn with
    | none =>
      have silent : Map.written (lockRows entries) sn = none := by
        refine Map.written_eq_none.mpr fun lock there => ?_
        obtain ⟨entry, there, _⟩ := Map.mem_column.mp there
        exact Map.written_eq_none.mp last entry there
      rw [silent]
      rfl
    | some entry =>
      cases locked : entry.lock with
      | some lock =>
        rw [lockRows, Map.written_column last locked]
        exact locked.symm
      | none =>
        obtain ⟨unlocked, before⟩ := keeps sn entry last locked
        have silent : Map.written (lockRows entries) sn = none := by
          refine Map.written_eq_none.mpr fun lock there => ?_
          obtain ⟨entry', there, has⟩ := Map.mem_column.mp there
          exact nomatch (unlocked entry' there).symm.trans has
        rw [silent]
        cases found : pool.lookup sn with
        | none => exact locked.symm
        | some old => exact (before old found).trans locked.symm

private theorem deleted_locks {diff : PoolDiff} (valid : diff.ValidOver pool.lookup) {sn : Hash}
    {entry : PoolEntry} (added : diff.add.lookup sn = some entry) :
    (store.locks.deleteMany diff.remove.keys).lookup sn = none := by
  rw [Map.lookup_deleteMany]
  split
  · rfl
  next kept =>
    have dead : pool.lookup sn = none := by
      rcases (valid sn).2 (by simp [PoolDiff.cell, added]) with dead | removed
      · exact dead
      · exact absurd (AList.lookup_isSome.mp removed) kept
    rw [refines.locks, dead]
    rfl

theorem Refines.apply {diff : PoolDiff} (valid : diff.ValidOver pool.lookup) :
    (store.apply diff).Refines (pool.writeDiff diff) where
  notes sn := by
    rw [DbNotePoolStore.apply, Map.lookup_putMany, noteRows, Map.written_map, Map.written_pairs,
      Map.lookup_deleteMany, PoolCollection.lookup_writeDiff, composedPoolView, refines.notes]
    cases diff.add.lookup sn with
    | some entry => rfl
    | none =>
      by_cases removed : sn ∈ diff.remove <;> simp [removed, ← AList.mem_keys]
  locks sn := by
    rw [DbNotePoolStore.apply, Map.lookup_putMany, PoolCollection.lookup_writeDiff, composedPoolView]
    cases added : diff.add.lookup sn with
    | some entry =>
      rw [deleted_locks refines valid added, Option.or_none]
      have last := (Map.written_pairs ..).trans added
      cases locked : entry.lock with
      | some lock => exact (Map.written_column last locked).trans locked.symm
      | none =>
        refine Eq.trans (Map.written_eq_none.mpr fun lock there => ?_) locked.symm
        obtain ⟨entry', there, has⟩ := Map.mem_column.mp there
        cases added.symm.trans (Map.mem_pairs.mp there)
        exact nomatch locked.symm.trans has
    | none =>
      have silent : Map.written (lockRows diff.add.pairs) sn = none := by
        refine Map.written_eq_none.mpr fun lock there => ?_
        obtain ⟨entry, there, _⟩ := Map.mem_column.mp there
        exact nomatch added.symm.trans (Map.mem_pairs.mp there)
      rw [silent, Map.lookup_deleteMany, refines.locks]
      by_cases removed : sn ∈ diff.remove <;> simp [removed, ← AList.mem_keys]

theorem Refines.call {call : StoreCall} (admitted : call.Admitted pool) :
    (call.onStore store).Refines (call.onMap pool) := by
  cases call with
  | writeMany entries => exact refines.writeMany admitted
  | apply diff => exact refines.apply admitted

theorem Refines.calls {calls : List StoreCall} (admitted : AllAdmitted pool calls) :
    (calls.foldl StoreCall.onStore store).Refines (calls.foldl StoreCall.onMap pool) := by
  induction calls generalizing store pool with
  | nil => exact refines
  | cons call rest ih => exact ih (refines.call admitted.1) admitted.2

end

end DbNotePoolStore

/-- After any admitted calls, reading a serial and scanning the store give what the single map
gives, and a lock row is left only under live notes. -/
theorem store_refines_map (store : DbNotePoolStore) (calls : List StoreCall)
    (live : store.LocksLive) (admitted : AllAdmitted store.toMap calls) :
    let after := calls.foldl StoreCall.onStore store
    let pool := calls.foldl StoreCall.onMap store.toMap
    (∀ sn, after.getNote sn = pool.lookup sn) ∧
      (∀ fromSn limit skipFirst,
        after.seekIterator fromSn limit skipFirst = pool.seek fromSn limit skipFirst) ∧
      (∀ sn, after.locks.lookup sn = (pool.lookup sn).bind PoolEntry.lock) ∧
      after.LocksLive := by
  have refines := (DbNotePoolStore.refines_toMap live).calls admitted
  exact ⟨refines.getNote, refines.seekIterator, refines.locks, refines.locksLive⟩

/-- A locked note is staged, then spent by a diff that creates its serial again unlocked. -/
def restoredCalls : List StoreCall :=
  [.writeMany [(2, plainNote), (1, lockedNote)], .apply ⟨onePool, (createNote 1 lockedNote).add⟩]

private theorem restoredCalls_admitted : AllAdmitted DbNotePoolStore.empty.toMap restoredCalls := by
  refine ⟨fun sn last written unlocked => ?_, fun sn => ?_, trivial⟩
  · refine ⟨fun entry there => ?_, fun old live => by cases live⟩
    by_cases here : sn = 1
    · subst here
      cases written
      cases unlocked
    · simp only [List.mem_cons, Prod.mk.injEq, here, false_and, List.not_mem_nil, or_false] at there
      rw [there.2]
      rfl
  · by_cases here : sn = 1
    · subst here
      exact ⟨fun old removed => removed, fun _ => .inr rfl⟩
    · have silent : PoolDiff.cell ⟨onePool, (createNote 1 lockedNote).add⟩ sn = ⟨none, none⟩ := by
        rw [PoolDiff.cell, onePool, createNote, Map.lookup_insert_eq, Map.lookup_insert_eq, if_neg here, if_neg here]
        rfl
      rw [silent]
      exact ⟨fun _ removed => (by cases removed), fun added => (by cases added)⟩

theorem store_refines_map_restored :
    let after := restoredCalls.foldl StoreCall.onStore .empty
    after.getNote 1 = some plainNote ∧ after.getNote 2 = some plainNote ∧
      after.seekIterator (some 1) 5 true = [(2, plainNote)] ∧ after.locks.lookup 1 = none := by
  have refined := store_refines_map .empty restoredCalls (fun sn locked => nomatch locked)
    restoredCalls_admitted
  exact ⟨refined.1 1, refined.1 2, refined.2.1 (some 1) 5 true, refined.2.2.1 1⟩

/-- Serial 1 is written locked and later written again unlocked: the lock row stays and is joined to
the new note. -/
theorem writeMany_leaks_lock :
    let calls := [StoreCall.writeMany [(1, lockedNote)], .writeMany [(1, plainNote)]]
    DbNotePoolStore.empty.LocksLive ∧
      (calls.foldl StoreCall.onStore .empty).getNote 1 = some lockedNote ∧
      (calls.foldl StoreCall.onMap DbNotePoolStore.empty.toMap).lookup 1 = some plainNote :=
  ⟨fun _ locked => (nomatch locked), rfl, rfl⟩

end Marigold.NotePool
