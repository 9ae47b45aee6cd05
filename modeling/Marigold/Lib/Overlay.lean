import Mathlib.Data.List.Induction
import Marigold.Lib.Delta

/-!
# Diffs over a base

A diff over a base stands for a store of its own, which is never built: the base with the diff
applied. `Represents` ties the diff to that store, and each way of changing the diff is a change of
the store: a removal, an addition, a second diff merged in.
-/

namespace Marigold.Lib

variable {K V : Type}

/-- A diff, given cell by cell, is valid over `base` and reads as `store` on top of it. -/
def Represents (cells : K → Cell V) (base store : K → Option V) : Prop :=
  ∀ k, (cells k).Valid (base k) ∧ (cells k).apply (base k) = store k

namespace Represents

variable {cells cells' : K → Cell V} {base store store' : K → Option V}

theorem empty (base : K → Option V) : Represents (fun _ => ⟨none, none⟩) base base :=
  fun _ => ⟨⟨by simp, by simp⟩, rfl⟩

/-- `same` takes no value that the second diff adds for another one of the base. -/
def FaithfulOver (same : V → V → Bool) (cells' : K → Cell V) (base : K → Option V) : Prop :=
  ∀ k, Cell.Faithful same (cells' k) (base k)

theorem merge {same : V → V → Bool} (reflexive : ∀ v, same v v) (first : Represents cells base store)
    (second : Represents cells' store store') (faithful : FaithfulOver same cells' base) :
    Represents (fun k => (cells k).merge same (cells' k)) base store' := fun k => by
  obtain ⟨valid, reads⟩ := first k
  obtain ⟨valid', reads'⟩ := second k
  rw [← reads] at valid' reads'
  exact ⟨Cell.merge_valid reflexive valid valid',
    ((Cell.merge_apply_iff reflexive valid valid').mpr (faithful k)).trans reads'⟩

/-- What leads on from the store is valid after what led to it. -/
theorem valid_after (first : Represents cells base store) (second : Represents cells' store store') (k : K) :
    (cells' k).Valid ((cells k).apply (base k)) := by
  rw [(first k).2]
  exact (second k).1

section Point

variable [DecidableEq K] {k : K} {v : V}

theorem removeAt (same : V → V → Bool) (self : same v v) (rep : Represents cells base store) (there : store k = some v)
    (changed : ∀ k', cells' k' = if k' = k then (cells k).mergeRemove same v else cells k') :
    Represents cells' base (Function.update store k none) := fun k' => by
  rw [changed k']
  obtain ⟨valid, reads⟩ := rep k'
  split
  next here =>
    subst here
    obtain ⟨valid', absent, _⟩ := Cell.mergeRemove_spec self valid (reads.trans there)
    exact ⟨valid', by rw [absent, Function.update_self]⟩
  next elsewhere => exact ⟨valid, by rw [reads, Function.update_of_ne elsewhere]⟩

theorem addAt (same : V → V → Bool) (rep : Represents cells base store) (absent : store k = none)
    (faithful : ∀ old, base k = some old → same old v → old = v)
    (changed : ∀ k', cells' k' = if k' = k then (cells k).mergeAdd same v else cells k') :
    Represents cells' base (Function.update store k (some v)) := fun k' => by
  rw [changed k']
  obtain ⟨valid, reads⟩ := rep k'
  split
  next here =>
    subst here
    obtain ⟨valid', reads'⟩ : ((cells k').mergeAdd same v).Valid (base k') ∧ _ :=
      Cell.mergeAdd_spec valid (reads.trans absent)
    exact ⟨valid', by rw [reads'.mpr faithful, Function.update_self]⟩
  next elsewhere => exact ⟨valid, by rw [reads, Function.update_of_ne elsewhere]⟩

end Point

end Represents

/-! ## Exact differences -/

/-- The diff says of each key exactly how the two stores differ there. -/
def IsDifference [DecidableEq V] (cells : K → Cell V) (base store : K → Option V) : Prop :=
  ∀ k, cells k = Cell.between (base k) (store k)

namespace IsDifference

variable [DecidableEq V] {cells cells' : K → Cell V} {base store store' : K → Option V}

theorem represents (difference : IsDifference cells base store) : Represents cells base store := by
  intro k
  rw [difference k]
  exact ⟨Cell.between_valid _ _, Cell.between_apply _ _⟩

theorem of_represents (rep : Represents cells base store)
    (fresh : ∀ k, (cells k).add.isSome → base k = none) : IsDifference cells base store := by
  intro k
  obtain ⟨valid, reads⟩ := rep k
  rw [← reads]
  exact Cell.eq_between valid (fresh k)

theorem reverse (difference : IsDifference cells base store) :
    IsDifference (fun k => (cells k).reverse) store base := by
  intro k
  dsimp only
  rw [difference k]
  exact Cell.between_reverse _ _

/-- Differences merge to a difference when `same` takes no value of the last store for another one
of the first. -/
theorem merge {same : V → V → Bool} (reflexive : ∀ v, same v v)
    (first : IsDifference cells base store) (second : IsDifference cells' store store')
    (faithful : ∀ k old new, base k = some old → store' k = some new → same old new → old = new) :
    IsDifference (fun k => (cells k).merge same (cells' k)) base store' := by
  intro k
  dsimp only
  rw [first k, second k]
  exact Cell.between_merge reflexive (faithful k)

end IsDifference

/-! ## Several keys at once -/

section Batch

variable [DecidableEq K] {entries : List (K × V)} {k : K} {v : V}

/-- A store without the given keys. -/
def removeAll (store : K → Option V) (keys : List K) : K → Option V := fun k =>
  if k ∈ keys then none else store k

/-- A store with the given entries put over it. -/
def addAll (store : K → Option V) (entries : List (K × V)) : K → Option V := fun k =>
  (entries.lookup k).or (store k)

@[simp] theorem removeAll_nil (store : K → Option V) : removeAll store [] = store := by
  funext k
  simp [removeAll]

@[simp] theorem addAll_nil (store : K → Option V) : addAll store [] = store := by
  funext k
  simp [addAll]

theorem lookup_eq_none_of_notMem (absent : k ∉ entries.map Prod.fst) : entries.lookup k = none := by
  rw [List.lookup_eq_none_iff]
  intro p member
  rw [bne_iff_ne]
  rintro rfl
  exact absent (List.mem_map_of_mem member)

theorem mem_of_lookup (found : entries.lookup k = some v) : (k, v) ∈ entries := by
  obtain ⟨before, after, rfl, _⟩ := List.lookup_eq_some_iff.mp found
  simp

theorem lookup_of_mem (nodup : (entries.map Prod.fst).Nodup) (member : (k, v) ∈ entries) :
    entries.lookup k = some v := by
  induction entries with
  | nil => cases member
  | cons first rest ih =>
    obtain ⟨key, value⟩ := first
    rw [List.map_cons, List.nodup_cons] at nodup
    rcases List.mem_cons.mp member with here | later
    · cases here
      simp
    · have apart : k ≠ key := by
        rintro rfl
        exact nodup.1 (List.mem_map.mpr ⟨(k, v), later, rfl⟩)
      rw [List.lookup_cons, beq_false_of_ne apart]
      exact ih nodup.2 later

theorem notMem_of_addAll_eq_none {store : K → Option V} (absent : addAll store entries k = none) :
    k ∉ entries.map Prod.fst := by
  rintro member
  obtain ⟨p, hp, rfl⟩ := List.mem_map.mp member
  simp only [addAll, Option.or_eq_none_iff, List.lookup_eq_none_iff, bne_iff_ne] at absent
  exact absent.1 p hp rfl

/-- Keys are removed one by one, each with what it had at the start. -/
theorem removeAll_induction {α : Type} {f : α → K} {items : List α} {store : K → Option V}
    {P : List α → (K → Option V) → Prop} (nodup : (items.map f).Nodup) (start : P [] store)
    (step : ∀ done a now, a ∈ items → now (f a) = store (f a) → P done now →
      P (done ++ [a]) (Function.update now (f a) none)) : P items (removeAll store (items.map f)) := by
  induction items using List.reverseRecOn with
  | nil => simpa using start
  | append_singleton items a ih =>
    rw [List.map_append, List.map_singleton] at nodup ⊢
    obtain ⟨before, -, apart⟩ := List.nodup_append.mp nodup
    have new : f a ∉ items.map f := fun member => apart _ member _ List.mem_cons_self rfl
    have removed : removeAll store (items.map f ++ [f a]) =
        Function.update (removeAll store (items.map f)) (f a) none := by
      funext k
      by_cases here : k = f a <;> simp [removeAll, here]
    rw [removed]
    refine step items a _ (by simp) (if_neg new) (ih before fun done a now member => ?_)
    exact step done a now (List.mem_append_left _ member)

/-- Entries are added one by one, each where the store is as it was at the start. -/
theorem addAll_induction {store : K → Option V} {P : List (K × V) → (K → Option V) → Prop}
    (nodup : (entries.map Prod.fst).Nodup) (start : P [] store)
    (step : ∀ done p now, p ∈ entries → now p.1 = store p.1 → P done now →
      P (done ++ [p]) (Function.update now p.1 (some p.2))) : P entries (addAll store entries) := by
  induction entries using List.reverseRecOn with
  | nil => simpa using start
  | append_singleton entries p ih =>
    obtain ⟨key, value⟩ := p
    rw [List.map_append, List.map_singleton] at nodup
    obtain ⟨before, -, apart⟩ := List.nodup_append.mp nodup
    have new : key ∉ entries.map Prod.fst := fun member => apart _ member _ List.mem_cons_self rfl
    have added : addAll store (entries ++ [(key, value)]) =
        Function.update (addAll store entries) key (some value) := by
      funext k
      rw [addAll, List.lookup_append, Function.update_apply]
      by_cases here : k = key
      · simp [here, lookup_eq_none_of_notMem new]
      · simp [List.lookup_cons, here, beq_false_of_ne here, addAll]
    rw [added]
    refine step entries _ _ (by simp) ?_ (ih before fun done p now member => ?_)
    · rw [addAll, lookup_eq_none_of_notMem new, Option.none_or]
    · exact step done p now (List.mem_append_left _ member)

omit [DecidableEq K] in
theorem foldlM_concat_eq_ok {D ε : Type} {step : D → K × V → Except ε D} {d d₁ d₂ : D} {p : K × V}
    (looped : entries.foldlM step d = .ok d₁) (stepped : step d₁ p = .ok d₂) :
    (entries ++ [p]).foldlM step d = .ok d₂ := by
  rw [List.foldlM_append, looped]
  simp [bind, Except.bind, stepped, pure, Except.pure]

variable {D ε : Type} {cellsOf : D → K → Cell V} {base : K → Option V}

variable (step : D → K × V → Except ε D) (entries) (d : D) (store : K → Option V)
  (rep : Represents (cellsOf d) base store) (nodup : (entries.map Prod.fst).Nodup)

include step entries d store rep nodup

/-- A loop that removes entries one by one, each of them present when its turn comes. -/
theorem foldlM_removes (removes : ∀ d store k v, Represents (cellsOf d) base store → store k = some v →
      ∃ d', step d (k, v) = .ok d' ∧ Represents (cellsOf d') base (Function.update store k none))
    (there : ∀ p ∈ entries, store p.1 = some p.2) :
    ∃ d', entries.foldlM step d = .ok d' ∧ Represents (cellsOf d') base (removeAll store (entries.map Prod.fst)) := by
  refine removeAll_induction (P := fun done now => ∃ d', done.foldlM step d = .ok d' ∧
    Represents (cellsOf d') base now) nodup ⟨d, rfl, rep⟩ ?_
  rintro done p now member same ⟨d₁, looped, rep₁⟩
  obtain ⟨d₂, stepped, rep₂⟩ := removes d₁ now p.1 p.2 rep₁ (same.trans (there p member))
  exact ⟨d₂, foldlM_concat_eq_ok looped stepped, rep₂⟩

/-- A loop that adds entries one by one, each of them absent when its turn comes. -/
theorem foldlM_adds (Allowed : K → V → Prop)
    (adds : ∀ d store k v, Represents (cellsOf d) base store → store k = none → Allowed k v →
      ∃ d', step d (k, v) = .ok d' ∧ Represents (cellsOf d') base (Function.update store k (some v)))
    (absent : ∀ p ∈ entries, store p.1 = none) (allowed : ∀ p ∈ entries, Allowed p.1 p.2) :
    ∃ d', entries.foldlM step d = .ok d' ∧ Represents (cellsOf d') base (addAll store entries) := by
  refine addAll_induction (P := fun done now => ∃ d', done.foldlM step d = .ok d' ∧
    Represents (cellsOf d') base now) nodup ⟨d, rfl, rep⟩ ?_
  rintro done p now member same ⟨d₁, looped, rep₁⟩
  obtain ⟨d₂, stepped, rep₂⟩ := adds d₁ now p.1 p.2 rep₁ (same.trans (absent p member)) (allowed p member)
  exact ⟨d₂, foldlM_concat_eq_ok looped stepped, rep₂⟩

end Batch

end Marigold.Lib
