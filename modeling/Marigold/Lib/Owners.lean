import Marigold.Lib.Table

/-!
# Who holds what

Holders in a map, each with a list of the things it takes, and an index from the things to the one holder that
takes each. Holders that take nothing another has taken can be put in, and any holder can be taken out.
-/

namespace Marigold.Lib

variable {I V K : Type} [DecidableEq I] [DecidableEq K] {takes : V → List K}

/-- The index names the holders of what is taken, and nothing else. -/
def Owns (takes : V → List K) (all : Map I V) (owner : Map K I) : Prop :=
  ∀ k id, owner.lookup k = some id ↔ ∃ v, all.lookup id = some v ∧ k ∈ takes v

namespace Owns

variable {all : Map I V} {owner : Map K I} {id id' : I} {v v' : V} {k : K}

theorem empty : Owns takes (∅ : Map I V) (∅ : Map K I) := by
  intro k id
  simp

variable (owns : Owns takes all owner)

include owns

theorem unique (first : all.lookup id = some v) (taken : k ∈ takes v)
    (second : all.lookup id' = some v') (taken' : k ∈ takes v') : id = id' := by
  have one : owner.lookup k = some id := (owns k id).mpr ⟨v, first, taken⟩
  have other : owner.lookup k = some id' := (owns k id').mpr ⟨v', second, taken'⟩
  exact Option.some.inj (one.symm.trans other)

theorem put (fresh : all.lookup id = none) (free : ∀ k ∈ takes v, owner.lookup k = none) :
    Owns takes (all.insert id v) (owner.putMany ((takes v).map fun k => (k, id))) := by
  intro k id'
  rw [Map.lookup_putMany, Map.lookup_insert_eq]
  by_cases mine : k ∈ takes v
  · have now : Map.written ((takes v).map fun k => (k, id)) k = some id :=
      Map.written_eq_some (List.mem_map.mpr ⟨k, mine, rfl⟩) fun other member => by
        obtain ⟨k', -, same⟩ := List.mem_map.mp member
        exact (Prod.mk.inj same).2.symm
    rw [now, Option.some_or, Option.some_inj]
    constructor
    · rintro rfl
      exact ⟨v, if_pos rfl, mine⟩
    · rintro ⟨v', there, taken⟩
      split at there
      next same => exact same.symm
      · have before := (owns k id').mpr ⟨v', there, taken⟩
        exact nomatch (free k mine).symm.trans before
  · have silent : Map.written ((takes v).map fun k => (k, id)) k = none :=
      Map.written_eq_none.mpr fun other member => by
        obtain ⟨k', taken, same⟩ := List.mem_map.mp member
        exact mine ((Prod.mk.inj same).1 ▸ taken)
    rw [silent, Option.none_or, owns k id']
    constructor
    · rintro ⟨v', there, taken⟩
      refine ⟨v', ?_, taken⟩
      rw [if_neg, there]
      rintro rfl
      exact nomatch fresh.symm.trans there
    · rintro ⟨v', there, taken⟩
      split at there
      · cases there
        exact absurd taken mine
      · exact ⟨v', there, taken⟩

theorem take (there : all.lookup id = some v) : Owns takes (all.erase id) (owner.deleteMany (takes v)) := by
  intro k id'
  rw [Map.lookup_deleteMany, Map.lookup_erase_eq]
  split
  next mine =>
    refine ⟨(fun none => nomatch none), ?_⟩
    rintro ⟨v', there', taken⟩
    split at there'
    · cases there'
    next different => exact absurd (owns.unique there' taken there mine) different
  next other =>
    rw [owns k id']
    constructor
    · rintro ⟨v', there', taken⟩
      refine ⟨v', ?_, taken⟩
      rw [if_neg, there']
      rintro rfl
      cases there.symm.trans there'
      exact other taken
    · rintro ⟨v', there', taken⟩
      split at there'
      · cases there'
      · exact ⟨v', there', taken⟩

theorem replace (there : all.lookup id = some v) (same : takes v' = takes v) : Owns takes (all.insert id v') owner := by
  intro k id'
  rw [owns k id', Map.lookup_insert_eq]
  split
  next here =>
    subst here
    simp only [there, Option.some_inj, exists_eq_left', same]
  · exact Iff.rfl

/-- With fewer holders, what has an owner had it before. -/
theorem lookup_of_submap {all' : Map I V} {owner' : Map K I} (owns' : Owns takes all' owner')
    (sub : ∀ id v, all'.lookup id = some v → all.lookup id = some v)
    (there : owner'.lookup k = some id) : owner.lookup k = some id := by
  obtain ⟨v, found, taken⟩ := (owns' k id).mp there
  exact (owns k id).mpr ⟨v, sub id v found, taken⟩

end Owns

end Marigold.Lib
