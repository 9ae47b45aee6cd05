import Mathlib.Data.List.Induction
import Mathlib.Data.List.Sort
import Marigold.Lib.Map

/-!
# Ordered tables

A key-value table as a storage engine keeps it: rows are written and deleted in batches, and read
either one key at a time or by scanning in ascending key order from some key on.
-/

namespace Marigold.Lib.Map

variable {K V W : Type} [DecidableEq K] {k : K} {v : V} {f : V → Option W} {w : W}

/-! ## Batches -/

/-- Rows written one after the other; a later row replaces an earlier one under the same key. -/
def putMany (m : Map K V) (rows : List (K × V)) : Map K V :=
  rows.foldl (fun m row => m.insert row.1 row.2) m

def deleteMany (m : Map K V) (keys : List K) : Map K V := keys.foldl (fun m k => m.erase k) m

/-- What a batch leaves under a key: its last row there, if it has one. -/
def written (rows : List (K × V)) (k : K) : Option V :=
  rows.foldl (fun found row => if k = row.1 then some row.2 else found) none

@[simp] theorem written_nil (k : K) : written ([] : List (K × V)) k = none := rfl

@[simp] theorem written_concat (rows : List (K × V)) (row : K × V) (k : K) :
    written (rows ++ [row]) k = if k = row.1 then some row.2 else written rows k := by
  simp [written, List.foldl_append]

theorem lookup_putMany (m : Map K V) (rows : List (K × V)) (k : K) :
    (m.putMany rows).lookup k = (written rows k).or (m.lookup k) := by
  induction rows using List.reverseRecOn with
  | nil => rfl
  | append_singleton rows row ih =>
    rw [putMany, List.foldl_append]
    change ((m.putMany rows).insert row.1 row.2).lookup k = _
    rw [lookup_insert_eq, written_concat, ih]
    split <;> rfl

theorem putMany_eq_empty {rows : List (K × V)} : putMany (∅ : Map K V) rows = ∅ ↔ rows = [] := by
  constructor
  · intro empty
    cases rows using List.reverseRecOn with
    | nil => rfl
    | append_singleton rows row =>
      have there : (putMany (∅ : Map K V) (rows ++ [row])).lookup row.1 = some row.2 := by
        simp [lookup_putMany]
      rw [empty] at there
      cases there
  · rintro rfl
    rfl

theorem lookup_deleteMany (m : Map K V) (keys : List K) (k : K) :
    (m.deleteMany keys).lookup k = if k ∈ keys then none else m.lookup k := by
  induction keys generalizing m with
  | nil => simp [deleteMany]
  | cons key rest ih =>
    change (deleteMany (m.erase key) rest).lookup k = _
    rw [ih, lookup_erase_eq]
    by_cases here : k = key <;> simp [here]

theorem written_map (f : V → W) (rows : List (K × V)) (k : K) :
    written (rows.map fun row => (row.1, f row.2)) k = (written rows k).map f := by
  induction rows using List.reverseRecOn with
  | nil => rfl
  | append_singleton rows row ih =>
    rw [List.map_append, List.map_singleton, written_concat, written_concat, ih]
    split <;> rfl

section

variable {rows : List (K × V)}

theorem mem_of_written (last : written rows k = some v) : (k, v) ∈ rows := by
  induction rows using List.reverseRecOn with
  | nil => cases last
  | append_singleton rows row ih =>
    rw [written_concat] at last
    split at last
    next here =>
      cases last
      rw [here]
      exact List.mem_append_right _ (List.mem_singleton_self row)
    · exact List.mem_append_left _ (ih last)

theorem written_eq_none : written rows k = none ↔ ∀ v, (k, v) ∉ rows := by
  induction rows using List.reverseRecOn with
  | nil => simp
  | append_singleton rows row ih =>
    obtain ⟨key, value⟩ := row
    by_cases here : k = key
    · subst here
      simpa using ⟨value, fun _ => rfl⟩
    · simp [here, ih]

theorem isSome_putMany (m : Map K V) (rows : List (K × V)) (k : K) :
    ((m.putMany rows).lookup k).isSome ↔ k ∈ rows.map Prod.fst ∨ (m.lookup k).isSome := by
  have last : (written rows k).isSome ↔ k ∈ rows.map Prod.fst := by
    rw [← not_iff_not, Option.not_isSome_iff_eq_none, written_eq_none]
    simp
  rw [lookup_putMany, Option.isSome_or, Bool.or_eq_true, last]

theorem written_eq_some (there : (k, v) ∈ rows) (only : ∀ v', (k, v') ∈ rows → v' = v) : written rows k = some v := by
  cases last : written rows k with
  | none => exact absurd there (written_eq_none.mp last v)
  | some v' => rw [only v' (mem_of_written last)]

/-- Rows that are the graph of a function at a key leave its value there. -/
theorem written_of_graph {found : Option V} (graph : ∀ v, (k, v) ∈ rows ↔ found = some v) : written rows k = found := by
  cases found with
  | none => exact written_eq_none.mpr fun v there => nomatch (graph v).mp there
  | some v =>
    exact written_eq_some ((graph v).mpr rfl) fun v' there => (Option.some.inj ((graph v').mp there)).symm

end

/-- The entries of a map as pairs. -/
def pairs (m : Map K V) : List (K × V) := m.entries.map fun entry => (entry.1, entry.2)

theorem mem_pairs {m : Map K V} : (k, v) ∈ m.pairs ↔ m.lookup k = some v := by
  rw [lookup_eq_some_iff, pairs, List.mem_map]
  constructor
  · rintro ⟨⟨key, value⟩, there, same⟩
    cases same
    exact there
  · intro there
    exact ⟨⟨k, v⟩, there, rfl⟩

/-- A map written row by row leaves its own entry under each key. -/
theorem written_pairs (m : Map K V) (k : K) : written m.pairs k = m.lookup k :=
  written_of_graph fun _ => mem_pairs

/-- The rows of a column that only some rows have. -/
def column (f : V → Option W) (rows : List (K × V)) : List (K × W) :=
  rows.filterMap fun row => (f row.2).map fun w => (row.1, w)

omit [DecidableEq K] in
theorem mem_column {rows : List (K × V)} : (k, w) ∈ column f rows ↔ ∃ v, (k, v) ∈ rows ∧ f v = some w := by
  simp only [column, List.mem_filterMap, Option.map_eq_some_iff, Prod.mk.injEq, Prod.exists]
  constructor
  · rintro ⟨_, v, there, w', has, rfl, rfl⟩
    exact ⟨v, there, has⟩
  · rintro ⟨v, there, has⟩
    exact ⟨k, v, there, w, has, rfl, rfl⟩

theorem written_column {rows : List (K × V)} (last : written rows k = some v) (has : f v = some w) :
    written (column f rows) k = some w := by
  induction rows using List.reverseRecOn with
  | nil => cases last
  | append_singleton rows row ih =>
    obtain ⟨key, value⟩ := row
    rw [written_concat] at last
    rw [column, List.filterMap_append]
    change written (column f rows ++ _) k = some w
    by_cases here : k = key
    · rw [if_pos here, Option.some.injEq] at last
      subst last
      simp [has, here]
    · rw [if_neg here] at last
      cases own : f value with
      | none => simpa [own] using ih last
      | some w' => simpa [own, here] using ih last

/-- A table with every value replaced. -/
def mapValues (f : K → V → W) (m : Map K V) : Map K W where
  entries := m.entries.map fun entry => ⟨entry.1, f entry.1 entry.2⟩
  nodupKeys := by
    have keys : (m.entries.map fun entry => (⟨entry.1, f entry.1 entry.2⟩ : Sigma fun _ : K => W)).keys
        = m.entries.keys := by simp [List.keys, Function.comp_def]
    exact (congrArg List.Nodup keys).mpr m.nodupKeys

theorem lookup_mapValues (f : K → V → W) (m : Map K V) (k : K) : (m.mapValues f).lookup k = (m.lookup k).map (f k) := by
  ext w
  rw [lookup_eq_some_iff, Option.map_eq_some_iff]
  simp only [mapValues, List.mem_map, lookup_eq_some_iff]
  constructor
  · rintro ⟨⟨key, v⟩, there, same⟩
    cases same
    exact ⟨v, there, rfl⟩
  · rintro ⟨v, there, rfl⟩
    exact ⟨⟨k, v⟩, there, rfl⟩

/-! ## Scans -/

section Scan

variable [LE K] [DecidableLE K] {m : Map K V} {m' : Map K W}

/-- All rows, ascending by key. -/
def rows (m : Map K V) : List (K × V) :=
  m.pairs.insertionSort fun a b => a.1 ≤ b.1

/-- A bounded scan from a key on, its first row skipped on request. -/
def seek (m : Map K V) (start : Option K) (limit : Nat) (skipFirst : Bool) : List (K × V) :=
  let from_ := m.rows.dropWhile fun row => start.any fun k => !decide (k ≤ row.1)
  (if skipFirst then from_.drop 1 else from_).take limit

theorem mem_rows {k : K} {v : V} : (k, v) ∈ m.rows ↔ m.lookup k = some v := by
  rw [rows, List.mem_insertionSort, mem_pairs]

omit [DecidableEq K] in
theorem nodup_rows (m : Map K V) : (m.rows.map Prod.fst).Nodup := by
  have perm : (m.rows.map Prod.fst).Perm m.entries.keys := by
    simpa [rows, pairs, List.keys, Function.comp_def] using
      (List.perm_insertionSort (fun a b : K × V => a.1 ≤ b.1) m.pairs).map Prod.fst
  exact perm.nodup_iff.mpr m.nodupKeys

variable [Std.IsLinearOrder K]

omit [DecidableEq K] in
theorem pairwise_rows (m : Map K V) : m.rows.Pairwise fun a b => a.1 ≤ b.1 :=
  have : Std.Total fun a b : K × V => a.1 ≤ b.1 := ⟨fun _ _ => Std.le_total⟩
  have : IsTrans (K × V) fun a b => a.1 ≤ b.1 := ⟨fun _ _ _ => Std.le_trans⟩
  List.pairwise_insertionSort ..

/-- Two tables that hold the same keys are scanned in step. -/
theorem rows_map (f : K → V → W) (same : ∀ k, m'.lookup k = (m.lookup k).map (f k)) :
    m'.rows = m.rows.map fun row => (row.1, f row.1 row.2) := by
  have members : ∀ row, row ∈ m'.rows ↔ row ∈ m.rows.map fun row => (row.1, f row.1 row.2) := by
    rintro ⟨k, w⟩
    rw [mem_rows, same, Option.map_eq_some_iff, List.mem_map]
    constructor
    · rintro ⟨v, found, rfl⟩
      exact ⟨(k, v), mem_rows.mpr found, rfl⟩
    · rintro ⟨⟨key, v⟩, there, pair⟩
      cases pair
      exact ⟨v, mem_rows.mp there, rfl⟩
  have sorted : (m.rows.map fun row => (row.1, f row.1 row.2)).Pairwise fun a b => a.1 ≤ b.1 :=
    List.pairwise_map.mpr m.pairwise_rows
  have distinct : (m.rows.map fun row => (row.1, f row.1 row.2)).Nodup :=
    List.Nodup.of_map Prod.fst (by simpa [Function.comp_def] using m.nodup_rows)
  have perm := (List.perm_ext_iff_of_nodup (List.Nodup.of_map _ m'.nodup_rows) distinct).mpr members
  refine perm.eq_of_pairwise ?_ m'.pairwise_rows sorted
  -- Only rows under one key are ordered both ways, and a key has one row.
  rintro ⟨k, w⟩ ⟨k', w'⟩ first second below above
  obtain rfl : k = k' := Std.le_antisymm below above
  have left := mem_rows.mp first
  have right := mem_rows.mp ((members _).mpr second)
  rw [Option.some.inj (left.symm.trans right)]

theorem seek_map (f : K → V → W) (same : ∀ k, m'.lookup k = (m.lookup k).map (f k))
    (start : Option K) (limit : Nat) (skipFirst : Bool) :
    m'.seek start limit skipFirst = (m.seek start limit skipFirst).map fun row => (row.1, f row.1 row.2) := by
  rw [seek, seek, rows_map f same, List.dropWhile_map]
  cases skipFirst <;> simp [List.map_take, Function.comp_def]

end Scan

end Marigold.Lib.Map
