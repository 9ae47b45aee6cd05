import Mathlib.Data.List.Chain
import Mathlib.Tactic.Ring

/-!
# Samples of a climbing chain

A chain of scored items, newest first, that starts at score zero and climbs by at most `K + 1` at a time. The scores
are cut into epochs of length `F`, and the first item of each epoch is a sample. As long as a step is shorter than an
epoch, no epoch is skipped, so the samples stand one in each epoch and close to its start.
-/

namespace Marigold.Lib

variable {α : Type} (score : α → Nat)

/-- Newest first, down to `base`. -/
inductive Climb (K : Nat) (base : α) : List α → Prop where
  | base (zero : score base = 0) : Climb K base [base]
  | next {b p : α} {rest : List α} (below : Climb K base (p :: rest)) (higher : score p < score b)
      (step : score b ≤ score p + K + 1) : Climb K base (b :: p :: rest)

/-- The base and every item in a later epoch than the one below it. -/
def samples (F : Nat) : List α → List α
  | [] => []
  | [base] => [base]
  | b :: p :: rest => if score p / F < score b / F then b :: samples F (p :: rest) else samples F (p :: rest)

namespace Climb

variable {score} {K F : Nat} {base : α} {b p s : α} {chain rest : List α}

theorem below_head (climb : Climb score K base (b :: rest)) : ∀ a ∈ rest, score a < score b := by
  generalize whole : b :: rest = chain at climb
  induction climb generalizing b rest with
  | base zero =>
    obtain ⟨-, rfl⟩ := List.cons.inj whole
    simp
  | @next b' p rest' below higher step ih =>
    cases whole
    intro a member
    rcases List.mem_cons.mp member with rfl | older
    · exact higher
    · exact (ih rfl a older).trans higher

theorem sorted (climb : Climb score K base chain) : chain.Pairwise fun a b => score b < score a := by
  induction climb with
  | base => exact List.pairwise_singleton _ _
  | next below higher step ih => exact List.pairwise_cons.mpr ⟨(next below higher step).below_head, ih⟩

end Climb

section Samples

variable {score} {F : Nat} {b p s : α} {chain rest : List α}

theorem samples_sublist : (samples score F chain).Sublist chain := by
  induction chain using samples.induct score F with
  | case1 => exact List.Sublist.refl _
  | case2 base => exact List.Sublist.refl _
  | case3 b p rest later ih =>
    rw [samples, if_pos later]
    exact ih.cons_cons b
  | case4 b p rest same ih =>
    rw [samples, if_neg same]
    exact ih.cons b

theorem samples_ne_nil : samples score F (b :: rest) ≠ [] := by
  induction rest generalizing b with
  | nil => exact List.cons_ne_nil _ _
  | cons p rest ih =>
    rw [samples]
    split
    · exact List.cons_ne_nil _ _
    · exact ih

end Samples

namespace Climb

variable {score} {K F : Nat} {base : α} {b p s : α} {chain rest below : List α}

/-- The newest sample is in the epoch of the newest item. -/
theorem samples_head (climb : Climb score K base (b :: rest)) (newest : samples score F (b :: rest) = s :: below) :
    score s / F = score b / F := by
  generalize whole : b :: rest = chain at climb newest
  induction climb generalizing b rest with
  | base =>
    obtain ⟨rfl, -⟩ := List.cons.inj whole
    obtain ⟨rfl, -⟩ := List.cons.inj newest
    rfl
  | @next b' p rest' before higher step ih =>
    cases whole
    rw [samples] at newest
    split at newest
    · obtain ⟨rfl, -⟩ := List.cons.inj newest
      rfl
    next same =>
      rw [ih rfl newest]
      exact Nat.le_antisymm (Nat.div_le_div_right higher.le) (not_lt.mp same)

theorem epoch_le_succ (short : K < F) (higher : score p < score b) (step : score b ≤ score p + K + 1) :
    score b / F ≤ score p / F + 1 := by
  have within : score b ≤ score p + F := by omega
  have bound := Nat.div_le_div_right (c := F) within
  rwa [Nat.add_div_right _ (by omega)] at bound

/-- An item in a later epoch than the one below it is close to the start of its epoch. -/
theorem mod_le (short : K < F) (step : score b ≤ score p + K + 1) (later : score p / F < score b / F) :
    score b % F ≤ K := by
  have start : score b / F * F ≤ score b := Nat.div_mul_le_self _ _
  have split := Nat.div_add_mod' (score b) F
  have before : score p < score b / F * F := by
    have positive : 0 < F := by omega
    exact (Nat.div_lt_iff_lt_mul positive).mp later
  omega

theorem samples_mod_le (short : K < F) (climb : Climb score K base chain) :
    ∀ s ∈ samples score F chain, score s % F ≤ K := by
  induction climb with
  | base zero =>
    intro s member
    obtain rfl := List.mem_singleton.mp member
    simp [zero]
  | next below higher step ih =>
    rw [samples]
    split
    next later => exact List.forall_mem_cons.mpr ⟨mod_le short step later, ih⟩
    · exact ih

/-- One sample in each epoch, from the newest down. -/
theorem samples_epoch (short : K < F) (climb : Climb score K base (b :: rest)) {i : Nat}
    (at_ : (samples score F (b :: rest))[i]? = some s) : score s / F + i = score b / F := by
  generalize whole : b :: rest = chain at climb at_
  induction climb generalizing b rest i with
  | base zero =>
    obtain ⟨rfl, -⟩ := List.cons.inj whole
    rw [samples, List.getElem?_singleton] at at_
    split at at_
    next first =>
      cases at_
      omega
    · cases at_
  | @next b' p rest' before higher step ih =>
    obtain ⟨rfl, rfl⟩ := List.cons.inj whole
    have close := epoch_le_succ short higher step
    rw [samples] at at_
    split at at_
    next later =>
      cases i with
      | zero =>
        cases at_
        omega
      | succ i =>
        have earlier := ih rfl at_
        omega
    next same =>
      have earlier := ih rfl at_
      have kept : score b / F = score p / F :=
        Nat.le_antisymm (not_lt.mp same) (Nat.div_le_div_right higher.le)
      omega

theorem base_mem_samples (climb : Climb score K base chain) : base ∈ samples score F chain := by
  induction climb with
  | base => exact List.mem_singleton.mpr rfl
  | next _ _ _ ih =>
    rw [samples]
    split
    · exact .tail _ ih
    · exact ih

end Climb

end Marigold.Lib
