import Mathlib.Data.Option.Basic
import Mathlib.Tactic.SplitIfs

/-!
# Diffs at one key

A diff of a key-value store says of each key what it adds and what it removes. Everything about
composing diffs is decided key by key, so the algebra is developed here for a single key: what a
cell does to the value in the store, when it is valid over it, its reverse, and how a second cell
is merged into a first one.

Merging cancels an addition against a removal when `same` takes the two values for the same one;
`same` can be coarser than equality, and the results say exactly when that matters.
-/

namespace Marigold.Lib

/-- What a diff says about one key. -/
@[ext] structure Cell (V : Type) where
  add : Option V
  remove : Option V
  deriving DecidableEq, Repr

namespace Cell

variable {V : Type} (same : V → V → Bool)

/-- The value after the diff, given the value before. -/
def apply (c : Cell V) (base : Option V) : Option V :=
  match c.add with
  | some v => some v
  | none => if c.remove.isSome then none else base

theorem apply_of_add {c : Cell V} {v : V} (adds : c.add = some v) (base : Option V) : c.apply base = some v := by
  simp [apply, adds]

theorem apply_of_not_add {c : Cell V} (silent : c.add = none) (base : Option V) :
    c.apply base = if c.remove.isSome then none else base := by simp [apply, silent]

/-- What is removed is there, and what is added is not, unless it is removed as well. -/
structure Valid (c : Cell V) (base : Option V) : Prop where
  removed : ∀ v, c.remove = some v → base = some v
  added : c.add.isSome → base = none ∨ c.remove.isSome

def reverse (c : Cell V) : Cell V := ⟨c.remove, c.add⟩

/-- One iteration of the loop over the second diff's removals. -/
def mergeRemove (c : Cell V) (v : V) : Cell V :=
  if c.add.any (same · v) then { c with add := none } else { c with remove := some v }

/-- One iteration of the loop over the second diff's additions. -/
def mergeAdd (c : Cell V) (v : V) : Cell V :=
  if c.remove.any (same · v) then { c with remove := none } else { c with add := some v }

/-- An addition is a removal with the two sides swapped. -/
theorem reverse_mergeRemove (c : Cell V) (v : V) : (mergeRemove same c.reverse v).reverse = mergeAdd same c v :=
  apply_ite reverse _ _ _

/-- Recording a single removal, refused if one is recorded already. -/
def removeOne (c : Cell V) (v : V) : Option (Cell V) :=
  if c.add.any (same · v) then some { c with add := none }
  else if c.remove.isNone then some { c with remove := some v } else none

/-- Recording a single addition, refused if one is recorded already. -/
def addOne (c : Cell V) (v : V) : Option (Cell V) :=
  if c.remove.any (same · v) then some { c with remove := none }
  else if c.add.isNone then some { c with add := some v } else none

theorem removeOne_reverse (c : Cell V) (v : V) : removeOne same c.reverse v = (addOne same c v).map reverse := by
  unfold removeOne addOne reverse
  split_ifs <;> rfl

/-- The second cell merged into the first one: removals, then additions. -/
def merge (c d : Cell V) : Cell V :=
  let c := d.remove.elim c (mergeRemove same c)
  d.add.elim c (mergeAdd same c)

/-- A removal of something already removed. -/
def RemovesTwice (c d : Cell V) : Prop :=
  ∃ v, d.remove = some v ∧ c.remove.isSome ∧ ¬ c.add.any (same · v)

/-- An addition over something already added. -/
def AddsTwice (c d : Cell V) : Prop :=
  d.add.isSome ∧ ∃ v, c.add = some v ∧ ¬ d.remove.any (same · v)

/-- The four things a valid cell can do. -/
theorem valid_cases {c : Cell V} {base : Option V} (valid : c.Valid base) :
    c = ⟨none, none⟩ ∨ (∃ e, c = ⟨none, some e⟩ ∧ base = some e) ∨ (∃ x, c = ⟨some x, none⟩ ∧ base = none) ∨
      ∃ x e, c = ⟨some x, some e⟩ ∧ base = some e := by
  obtain ⟨add, remove⟩ := c
  obtain ⟨removed, added⟩ := valid
  cases add with
  | none =>
    cases remove with
    | none => exact .inl rfl
    | some e => exact .inr (.inl ⟨e, rfl, removed e rfl⟩)
  | some x =>
    cases remove with
    | none => exact .inr (.inr (.inl ⟨x, rfl, by simpa using added⟩))
    | some e => exact .inr (.inr (.inr ⟨x, e, rfl, removed e rfl⟩))

section Reverse

variable {c : Cell V} {base : Option V}

theorem reverse_apply_apply (valid : c.Valid base) : c.reverse.apply (c.apply base) = base := by
  obtain rfl | ⟨e, rfl, rfl⟩ | ⟨x, rfl, rfl⟩ | ⟨x, e, rfl, rfl⟩ := valid_cases valid <;> rfl

end Reverse

section Merge

variable {same} {c d : Cell V} {base : Option V}

theorem not_removesTwice (reflexive : ∀ v, same v v) (first : c.Valid base)
    (second : d.Valid (c.apply base)) : ¬ RemovesTwice same c d := by
  rintro ⟨v, removes, removed, differ⟩
  have there := second.removed v removes
  obtain ⟨add, remove⟩ := c
  cases add with
  | none => simp [apply, show remove.isSome from removed] at there
  | some w =>
    obtain rfl : w = v := by simpa [apply] using there
    exact differ (reflexive w)

theorem not_addsTwice (reflexive : ∀ v, same v v) (second : d.Valid (c.apply base)) : ¬ AddsTwice same c d := by
  rintro ⟨adds, v, added, differ⟩
  have there := apply_of_add added base
  obtain ⟨w, removes⟩ : ∃ w, d.remove = some w := by
    rcases second.added adds with absent | covered
    · simp [there] at absent
    · exact Option.isSome_iff_exists.mp covered
  obtain rfl : v = w := by simpa [there] using second.removed w removes
  exact differ (by simp [removes, reflexive])

theorem mergeRemove_spec {v : V} (self : same v v) (valid : c.Valid base) (there : c.apply base = some v) :
    (mergeRemove same c v).Valid base ∧ (mergeRemove same c v).apply base = none ∧
      ¬ ((mergeRemove same c v).add.isSome ∧ (mergeRemove same c v).remove.isSome) := by
  obtain rfl | ⟨e, rfl, rfl⟩ | ⟨x, rfl, rfl⟩ | ⟨x, e, rfl, rfl⟩ := valid_cases valid
  · obtain rfl : base = some v := there
    exact ⟨⟨by simp [mergeRemove], by simp [mergeRemove]⟩, rfl, by simp [mergeRemove]⟩
  · simp [apply] at there
  · obtain rfl : x = v := by simpa [apply] using there
    simp [mergeRemove, self, apply, Valid.mk]
  · obtain rfl : x = v := by simpa [apply] using there
    simp [mergeRemove, self, apply, Valid.mk]

/-- Merging an addition where there is no value puts the value there, unless it is taken for
another one that the store held. -/
theorem mergeAdd_spec {w : V} (valid : c.Valid base) (absent : c.apply base = none) : (mergeAdd same c w).Valid base ∧
      ((mergeAdd same c w).apply base = some w ↔ ∀ v, base = some v → same v w → v = w) := by
  obtain rfl | ⟨e, rfl, rfl⟩ | ⟨x, rfl, rfl⟩ | ⟨x, e, rfl, rfl⟩ := valid_cases valid
  · obtain rfl : base = none := absent
    exact ⟨⟨by simp [mergeAdd], by simp⟩, by simp [mergeAdd, apply]⟩
  · by_cases taken : same e w
    · exact ⟨⟨by simp [mergeAdd, taken], by simp [mergeAdd, taken]⟩, by simp [mergeAdd, apply, taken]⟩
    · exact ⟨⟨by simp [mergeAdd, taken], by simp [mergeAdd, taken]⟩, by simp [mergeAdd, apply, taken]⟩
  · simp [apply] at absent
  · simp [apply] at absent

theorem removeOne_eq {v : V} (self : same v v) (there : c.apply base = some v) :
    removeOne same c v = some (mergeRemove same c v) := by
  unfold removeOne mergeRemove
  split
  · rfl
  next kept =>
    have silent : c.add = none := by
      cases adds : c.add with
      | none => rfl
      | some x =>
        obtain rfl : x = v := by simpa [apply_of_add adds] using there
        exact absurd (by simp [adds, self]) kept
    have vacant : c.remove.isNone := by
      rw [apply_of_not_add silent] at there
      cases removes : c.remove with
      | none => rfl
      | some x => simp [removes] at there
    rw [if_pos vacant]

theorem addOne_eq {w : V} (absent : c.apply base = none) : addOne same c w = some (mergeAdd same c w) := by
  have vacant : c.add.isNone := by
    cases adds : c.add with
    | none => rfl
    | some x => simp [apply_of_add adds] at absent
  unfold addOne mergeAdd
  rw [if_pos vacant]
  split <;> rfl

section

variable (reflexive : ∀ v, same v v) (first : c.Valid base) (second : d.Valid (c.apply base))

include reflexive first second

private theorem afterRemovals : (d.remove.elim c (mergeRemove same c)).Valid base ∧
      (d.remove.elim c (mergeRemove same c)).apply base =
        if d.remove.isSome then none else c.apply base := by
  cases removes : d.remove with
  | none => exact ⟨first, rfl⟩
  | some v =>
    obtain ⟨valid, absent, _⟩ :=
      mergeRemove_spec (reflexive v) first (second.removed v removes)
    exact ⟨valid, absent⟩

private theorem absent_before_add (adds : d.add.isSome) : (d.remove.elim c (mergeRemove same c)).apply base = none := by
  rw [(afterRemovals reflexive first second).2]
  rcases second.added adds with absent | covered
  · rw [absent, ite_self]
  · rw [if_pos covered]

theorem merge_valid : (merge same c d).Valid base := by
  unfold merge
  have valid := (afterRemovals reflexive first second).1
  cases adds : d.add with
  | none => exact valid
  | some w =>
    have absent := absent_before_add reflexive first second (by simp [adds])
    exact (mergeAdd_spec valid absent).1

end

/-- `same` does not take a value the second cell adds for another one that the store held. -/
def Faithful (same : V → V → Bool) (d : Cell V) (base : Option V) : Prop :=
  ∀ w, d.add = some w → ∀ v, base = some v → same v w → v = w

/-- Merging is applying one cell after the other, exactly as far as `same` is faithful. -/
theorem merge_apply_iff (reflexive : ∀ v, same v v) (first : c.Valid base) (second : d.Valid (c.apply base)) :
    (merge same c d).apply base = d.apply (c.apply base) ↔ Faithful same d base := by
  obtain ⟨valid, between⟩ := afterRemovals reflexive first second
  unfold merge
  cases adds : d.add with
  | none =>
    simp only [Option.elim_none, Faithful, adds, reduceCtorEq, false_implies, implies_true, iff_true]
    rw [between, apply_of_not_add adds]
  | some w =>
    have absent := absent_before_add reflexive first second (by simp [adds])
    simp only [Option.elim_some, Faithful, adds, Option.some.injEq, forall_eq']
    rw [← (mergeAdd_spec valid absent).2, apply_of_add adds]

/-- A merged cell both adds and removes only if the first one did and the second one is silent, or
if the two values are told apart. -/
theorem merge_both (reflexive : ∀ v, same v v) (first : c.Valid base)
    (second : d.Valid (c.apply base)) {w v : V} (adds : (merge same c d).add = some w)
    (removes : (merge same c d).remove = some v) : merge same c d = c ∨ same v w = false := by
  unfold merge at adds removes ⊢
  cases add : d.add with
  | none =>
    simp only [add, Option.elim_none] at adds removes ⊢
    cases remove : d.remove with
    | none => exact .inl rfl
    | some e =>
      simp only [remove, Option.elim_some] at adds removes
      have single := (mergeRemove_spec (reflexive e) first (second.removed e remove)).2.2
      exact absurd ⟨by simp [adds], by simp [removes]⟩ single
  | some x =>
    right
    simp only [add, Option.elim_some, mergeAdd] at adds removes
    split at adds
    next taken => simp [taken] at removes
    next kept =>
      simp only [kept, Bool.false_eq_true, ↓reduceIte] at removes
      obtain rfl : x = w := by simpa using adds
      simpa [removes] using kept

end Merge

/-- A merged cell adds only if one of the two did. -/
theorem merge_adds {same : V → V → Bool} {c d : Cell V} (adds : (merge same c d).add.isSome) :
    c.add.isSome ∨ d.add.isSome := by
  unfold merge at adds
  cases new : d.add with
  | some w => exact .inr rfl
  | none =>
    left
    rw [new, Option.elim_none] at adds
    cases old : d.remove with
    | none => simpa [old] using adds
    | some v =>
      rw [old, Option.elim_some, mergeRemove] at adds
      split_ifs at adds
      · cases adds
      · exact adds

/-! ## Differences -/

section Between

variable [DecidableEq V] {base store store' : Option V}

/-- The difference of two values of a key: nothing where they agree, else the old one removed and the
new one added. -/
def between (base store : Option V) : Cell V :=
  if base = store then ⟨none, none⟩ else ⟨store, base⟩

theorem between_self (base : Option V) : between base base = ⟨none, none⟩ := if_pos rfl

theorem between_reverse (base store : Option V) : (between base store).reverse = between store base := by
  unfold between
  by_cases agree : base = store
  · rw [if_pos agree, if_pos agree.symm]
    rfl
  · rw [if_neg agree, if_neg (Ne.symm agree)]
    rfl

theorem between_valid (base store : Option V) : (between base store).Valid base := by
  unfold between
  split
  · exact ⟨by simp, by simp⟩
  · refine ⟨fun _ removed => removed, fun _ => ?_⟩
    cases base with
    | none => exact .inl rfl
    | some old => exact .inr rfl

theorem between_apply (base store : Option V) : (between base store).apply base = store := by
  unfold between
  split
  next agree => exact agree
  next differ =>
    cases store with
    | some new => rfl
    | none =>
      cases base with
      | none => exact absurd rfl differ
      | some old => rfl

/-- A valid cell that never adds what it removes is the difference it makes. -/
theorem eq_between_of_apart {c : Cell V} (valid : c.Valid base)
    (apart : ∀ v, c.add = some v → c.remove ≠ some v) : c = between base (c.apply base) := by
  obtain rfl | ⟨old, rfl, rfl⟩ | ⟨new, rfl, rfl⟩ | ⟨new, old, rfl, rfl⟩ := valid_cases valid
  · exact (between_self base).symm
  · rfl
  · rfl
  · exact (if_neg (apart new rfl)).symm

theorem eq_between {c : Cell V} (valid : c.Valid base) (fresh : c.add.isSome → base = none) :
    c = between base (c.apply base) := by
  apply eq_between_of_apart valid
  intro v adds removes
  exact nomatch (valid.removed v removes).symm.trans (fresh (by simp [adds]))

/-- Two valid cells that never add over a value and read the same are the same. -/
theorem eq_of_apply_eq {c d : Cell V} (first : c.Valid base) (second : d.Valid base)
    (fresh : c.add.isSome → base = none) (fresh' : d.add.isSome → base = none)
    (reads : c.apply base = d.apply base) : c = d := by
  rw [eq_between first fresh, reads, ← eq_between second fresh']

variable {same : V → V → Bool}

/-- Differences compose, unless `same` takes the last value for another one that was there at
first. -/
theorem between_merge (reflexive : ∀ v, same v v)
    (faithful : ∀ old new, base = some old → store' = some new → same old new → old = new) :
    merge same (between base store) (between store store') = between base store' := by
  -- What is left to compare at the end is the first value with the last one.
  have ends : ∀ old new, base = some old → store' = some new →
      mergeAdd same ⟨none, some old⟩ new = between (some old) (some new) := by
    intro old new first last
    unfold mergeAdd between
    by_cases agree : old = new
    · subst agree
      simp [reflexive]
    · have differ : ¬ same old new := fun taken => agree (faithful old new first last taken)
      simp [agree, differ]
  have cancels : ∀ v, mergeRemove same ⟨some v, base⟩ v = ⟨none, base⟩ := by
    intro v
    simp [mergeRemove, reflexive]
  by_cases first : base = store
  · subst first
    rw [between_self]
    by_cases second : base = store'
    · rw [second, between_self]
      rfl
    · rw [between, if_neg second]
      cases base with
      | none => cases store' <;> rfl
      | some old =>
        cases store' with
        | none => rfl
        | some new =>
          have tail := ends old new rfl rfl
          rw [between, if_neg second] at tail
          exact tail
  · by_cases second : store = store'
    · subst second
      rw [between_self]
      rfl
    · rw [between, if_neg first, between, if_neg second]
      cases store with
      | none =>
        cases base with
        | none => exact absurd rfl first
        | some old =>
          cases store' with
          | none => exact absurd rfl second
          | some new => exact ends old new rfl rfl
      | some v =>
        simp only [merge, Option.elim_some, cancels]
        cases base with
        | none => cases store' <;> rfl
        | some old =>
          cases store' with
          | none => rfl
          | some new => exact ends old new rfl rfl

variable (same)

/-- What is left of one side of a cell without the other. -/
def subtract (this other : Option V) : Option V :=
  this.filter fun v => !other.any (same · v)

/-- What leads from the first cell to the second one. -/
def diffFrom (c d : Cell V) : Cell V :=
  ⟨(subtract same d.add c.add).or (subtract same c.remove d.remove),
    (subtract same d.remove c.remove).or (subtract same c.add d.add)⟩

/-- `same` tells the values of a list apart. -/
def Distinguishes (values : List V) : Prop :=
  ∀ v ∈ values, ∀ w ∈ values, same v w → v = w

variable {same}

/-- The difference of two differences over a base is the difference of what they lead to. -/
theorem between_diffFrom (reflexive : ∀ v, same v v)
    (distinct : Distinguishes same (base.toList ++ store.toList ++ store'.toList)) :
    diffFrom same (between base store) (between base store') = between store store' := by
  -- On the values at hand `same` is equality, so every comparison is decided.
  have decided : ∀ v ∈ base.toList ++ store.toList ++ store'.toList,
      ∀ w ∈ base.toList ++ store.toList ++ store'.toList, same v w = decide (v = w) := by
    intro v inV w inW
    by_cases agree : v = w
    · subst agree
      simpa using reflexive v
    · simpa [agree] using fun taken => agree (distinct v inV w inW taken)
  unfold diffFrom between subtract
  rcases base with _ | e <;> rcases store with _ | v <;> rcases store' with _ | w <;>
    simp only [Option.toList_none, Option.toList_some, List.append_nil, List.nil_append,
      List.cons_append, List.forall_mem_cons, List.not_mem_nil, false_implies, implies_true,
      and_true] at decided <;>
    split_ifs <;> simp_all [Ne.symm]

end Between

end Cell

end Marigold.Lib
