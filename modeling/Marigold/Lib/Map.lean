import Mathlib.Data.List.AList
import Marigold.Lib.Delta

/-!
# Finite maps

Hash maps are association lists without repeated keys; the order of the entries stands for the
unspecified order a hash map is iterated in. Facts about maps are facts about their lookups.
-/

namespace Marigold.Lib

abbrev Map (K V : Type) := AList fun _ : K => V

namespace Map

variable {K V S C : Type} [DecidableEq K]

variable (m : Map K V)

theorem lookup_insert_eq (k k' : K) (v : V) : (m.insert k v).lookup k' = if k' = k then some v else m.lookup k' := by
  split
  next same =>
    subst same
    exact AList.lookup_insert m
  next differ => exact AList.lookup_insert_ne differ

variable {m}

theorem lookup_insert_of_new {k k' : K} {v w : V} (new : m.lookup k = none)
    (there : m.lookup k' = some v) : (m.insert k w).lookup k' = some v := by
  rw [lookup_insert_eq, if_neg, there]
  rintro rfl
  exact nomatch new.symm.trans there

theorem lookup_of_insert {k k' : K} {v w : V} (there : (m.insert k v).lookup k' = some w) :
    k' = k ∧ w = v ∨ m.lookup k' = some w := by
  rw [lookup_insert_eq] at there
  split at there
  next here => exact .inl ⟨here, (Option.some.inj there).symm⟩
  · exact .inr there

variable (m)

theorem lookup_erase_eq (k k' : K) : (m.erase k).lookup k' = if k' = k then none else m.lookup k' := by
  split
  next same =>
    subst same
    exact AList.lookup_erase k' m
  next differ => exact AList.lookup_erase_ne differ

variable {m}

theorem lookup_of_erase {k k' : K} {v : V} (there : (m.erase k).lookup k' = some v) : m.lookup k' = some v := by
  rw [lookup_erase_eq] at there
  split at there
  · cases there
  · exact there

theorem erase_of_lookup_none {k : K} (absent : m.lookup k = none) : m.erase k = m :=
  AList.ext (List.kerase_of_notMem_keys (AList.lookup_eq_none.mp absent))

theorem lookup_eq_some_iff {k : K} {v : V} : m.lookup k = some v ↔ (⟨k, v⟩ : Sigma fun _ : K => V) ∈ m.entries :=
  AList.mem_lookup_iff

variable (m)

/-- `retain`: the entries whose key passes. -/
def retain (keep : K → Bool) : Map K V :=
  ⟨m.entries.filter fun entry => keep entry.1, m.nodupKeys.sublist List.filter_sublist⟩

theorem lookup_retain (keep : K → Bool) (k : K) : (m.retain keep).lookup k = if keep k then m.lookup k else none := by
  refine Option.ext fun v => ?_
  have kept : (m.retain keep).lookup k = some v ↔ m.lookup k = some v ∧ keep k := by
    rw [lookup_eq_some_iff, lookup_eq_some_iff]
    exact List.mem_filter
  rw [kept]
  cases keep k <;> simp

/-- A loop over the entries of a map whose body, at each entry, only changes what the state holds
at that entry's key: at the end every key has seen its own entry once. -/
theorem foldl_entries_local (step : S → Sigma (fun _ : K => V) → S) (view : S → K → C) (update : V → C → C)
    (self : ∀ s k v, view (step s ⟨k, v⟩) k = update v (view s k))
    (other : ∀ s k v k', k' ≠ k → view (step s ⟨k, v⟩) k' = view s k') (m : Map K V) (s : S) (k : K) :
    view (m.entries.foldl step s) k = (m.lookup k).elim (view s k) fun v => update v (view s k) := by
  obtain ⟨entries, nodup⟩ := m
  change view (entries.foldl step s) k = (entries.dlookup k).elim (view s k) fun v => update v (view s k)
  induction entries generalizing s with
  | nil => rfl
  | cons entry rest ih =>
    obtain ⟨key, value⟩ := entry
    obtain ⟨fresh, nodup⟩ := List.nodupKeys_cons.mp nodup
    rw [List.foldl_cons, ih _ nodup]
    by_cases same : k = key
    · subst same
      have absent : rest.dlookup k = none := List.dlookup_eq_none.mpr fresh
      rw [absent, List.dlookup_cons_eq]
      exact self s k value
    · rw [List.dlookup_cons_ne rest ⟨key, value⟩ same, other s key value k same]

/-- Writing a diff to a stored map: removed keys are deleted, then added entries written. -/
def writeDiff (m add remove : Map K V) : Map K V :=
  add.entries.foldl (fun m entry => m.insert entry.1 entry.2) (remove.entries.foldl (fun m entry => m.erase entry.1) m)

theorem lookup_writeDiff (m add remove : Map K V) (k : K) :
    (m.writeDiff add remove).lookup k = (⟨add.lookup k, remove.lookup k⟩ : Cell V).apply (m.lookup k) := by
  rw [writeDiff, foldl_entries_local _ (fun m k => AList.lookup k m) (fun v _ => some v)
      (fun m k v => AList.lookup_insert m) (fun m k v k' differ => AList.lookup_insert_ne differ),
    foldl_entries_local _ (fun m k => AList.lookup k m) (fun _ _ => none)
      (fun m k v => AList.lookup_erase k m) (fun m k v k' differ => AList.lookup_erase_ne differ)]
  cases add.lookup k with
  | some v => rfl
  | none => cases remove.lookup k <;> rfl

end Map

end Marigold.Lib
