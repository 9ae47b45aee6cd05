import Mathlib.Algebra.GroupWithZero.Nat
import Mathlib.Algebra.Order.BigOperators.Group.List
import Mathlib.Algebra.Order.Group.Nat
import Mathlib.Data.List.Dedup
import Marigold.Lib.Map

/-!
# Items in groups

A map from groups to how many items of the group are held and what they amount to, kept along with the list
of the items: a group is in the map as long as an item of it is held. What is taken out may stand anywhere
in the list, so items are counted up to order.
-/

namespace Marigold.Lib

variable {A G : Type} [DecidableEq G] {group : A → G} {amount : A → Nat}

structure Usage where
  count : Nat
  amount : Nat
  deriving DecidableEq, Repr

namespace Quota

def countIn (group : A → G) (items : List A) (g : G) : Nat := items.countP fun a => group a = g

def amountIn (group : A → G) (amount : A → Nat) (items : List A) (g : G) : Nat :=
  ((items.filter fun a => group a = g).map amount).sum

/-- The groups that occur, each once. -/
def groups (group : A → G) (items : List A) : List G := (items.map group).dedup

/-- The map holds what the items of each group come to. -/
def Tracks (group : A → G) (amount : A → Nat) (usage : Map G Usage) (items : List A) : Prop :=
  ∀ g, usage.lookup g = if countIn group items g = 0 then none
    else some ⟨countIn group items g, amountIn group amount items g⟩

section Counts

variable {a : A} {items items' : List A} {g : G}

theorem countIn_cons : countIn group (a :: items) g = countIn group items g + if group a = g then 1 else 0 := by
  simp [countIn, List.countP_cons]

theorem amountIn_cons : amountIn group amount (a :: items) g =
    amountIn group amount items g + if group a = g then amount a else 0 := by
  by_cases here : group a = g
  · simp [amountIn, here, Nat.add_comm]
  · simp [amountIn, here]

theorem countIn_perm (same : items.Perm items') : countIn group items g = countIn group items' g :=
  same.countP_eq _

theorem amountIn_perm (same : items.Perm items') : amountIn group amount items g = amountIn group amount items' g :=
  ((same.filter _).map amount).sum_eq

theorem groups_perm (same : items.Perm items') : (groups group items).Perm (groups group items') :=
  (same.map group).dedup

theorem amountIn_sublist (fewer : items.Sublist items') :
    amountIn group amount items g ≤ amountIn group amount items' g :=
  (((fewer.filter _).map amount)).sum_le_sum fun _ _ => Nat.zero_le _

theorem groups_sublist (fewer : items.Sublist items') : (groups group items).length ≤ (groups group items').length := by
  refine (List.subperm_of_subset (List.nodup_dedup _) fun g member => ?_).length_le
  rw [groups, List.mem_dedup]
  rw [List.mem_dedup] at member
  exact (fewer.map group).subset member

theorem mem_groups : g ∈ groups group items ↔ countIn group items g ≠ 0 := by
  rw [groups, List.mem_dedup, List.mem_map, countIn, Ne, List.countP_eq_zero]
  simp

theorem amountIn_eq_zero (none : countIn group items g = 0) : amountIn group amount items g = 0 := by
  have empty := List.filter_eq_nil_iff.mpr (List.countP_eq_zero.mp none)
  rw [amountIn, empty]
  rfl

theorem length_groups_cons : (groups group (a :: items)).length =
    (groups group items).length + if countIn group items (group a) = 0 then 1 else 0 := by
  by_cases new : countIn group items (group a) = 0
  · have fresh : group a ∉ items.map group := fun member =>
      mem_groups.mp (List.mem_dedup.mpr member) new
    rw [if_pos new, groups, List.map_cons, List.dedup_cons_of_notMem fresh, List.length_cons, groups]
  · have known : group a ∈ items.map group := List.mem_dedup.mp (mem_groups.mpr new)
    rw [if_neg new, groups, List.map_cons, List.dedup_cons_of_mem known, groups, Nat.add_zero]

/-- A map whose keys are the groups that occur. -/
theorem length_eq_groups {V : Type} {m : Map G V} (keys : ∀ g, (m.lookup g).isSome ↔ countIn group items g ≠ 0) :
    m.entries.length = (groups group items).length := by
  have same : m.keys.Perm (groups group items) := by
    refine (List.perm_ext_iff_of_nodup m.keys_nodup (List.nodup_dedup _)).mpr fun g => ?_
    have occurs : g ∈ groups group items ↔ countIn group items g ≠ 0 := mem_groups
    refine Iff.trans ?_ occurs.symm
    rw [← AList.mem_keys, ← AList.lookup_isSome, keys g]
  have length : m.keys.length = m.entries.length := by simp [AList.keys, List.keys]
  rw [← length, same.length_eq]

end Counts

namespace Tracks

variable {usage : Map G Usage} {a : A} {items items' : List A}

theorem nil : Tracks group amount (∅ : Map G Usage) ([] : List A) := fun _ => rfl

section

variable (tracks : Tracks group amount usage items)

include tracks

theorem perm (same : items.Perm items') : Tracks group amount usage items' := by
  intro g
  rw [tracks g, countIn_perm same, amountIn_perm same]

theorem length : usage.entries.length = (groups group items).length := by
  refine length_eq_groups fun g => ?_
  rw [tracks g]
  split <;> simp_all

theorem take : Tracks group amount (usage.insert (group a) ⟨countIn group (a :: items) (group a),
      amountIn group amount (a :: items) (group a)⟩) (a :: items) := by
  intro g
  rw [Map.lookup_insert_eq]
  by_cases here : g = group a
  · subst here
    rw [if_pos rfl, if_neg (by rw [countIn_cons, if_pos rfl]; omega)]
  · rw [if_neg here, tracks g, countIn_cons, amountIn_cons, if_neg (Ne.symm here), if_neg (Ne.symm here)]
    rfl

end

/-- One item less, and its group too if it was the last one. -/
theorem drop (tracks : Tracks group amount usage (a :: items)) : Tracks group amount
      (if countIn group items (group a) = 0 then usage.erase (group a)
        else usage.insert (group a) ⟨countIn group items (group a), amountIn group amount items (group a)⟩)
      items := by
  intro g
  by_cases here : g = group a
  · subst here
    split
    next none => rw [Map.lookup_erase_eq, if_pos rfl]
    next some => rw [Map.lookup_insert_eq, if_pos rfl]
  · have elsewhere := tracks g
    rw [countIn_cons, amountIn_cons, if_neg (Ne.symm here), if_neg (Ne.symm here)] at elsewhere
    split
    next none => rw [Map.lookup_erase_eq, if_neg here, elsewhere]; rfl
    next some => rw [Map.lookup_insert_eq, if_neg here, elsewhere]; rfl

end Tracks

end Quota

end Marigold.Lib
