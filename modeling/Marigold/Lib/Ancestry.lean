import Mathlib.Data.List.Chain

/-!
# Lines of ancestors

A forest given by its parent function, with a rank that falls from child to parent. The line of a
node lists it and its ancestors; the path between two nodes of one line leads back up.
-/

namespace Marigold.Lib

variable {α : Type}

/-- The node and at most so many of its ancestors. -/
def ancestors (parent : α → Option α) : Nat → α → List α
  | 0, a => [a]
  | n + 1, a => a :: (parent a).elim [] (ancestors parent n)

/-- A parent function together with a rank. -/
structure Forest (α : Type) where
  parent : α → Option α
  rank : α → Nat
  falls : ∀ a b, parent a = some b → rank b < rank a

namespace Forest

variable (F : Forest α)

/-- The node and all its ancestors, from the node down. -/
def line (a : α) : List α := ancestors F.parent (F.rank a) a

theorem ancestors_eq {n : Nat} {a : α} (enough : F.rank a ≤ n) : ancestors F.parent n a = F.line a := by
  suffices same : ∀ n m a, F.rank a ≤ n → F.rank a ≤ m →
      ancestors F.parent n a = ancestors F.parent m a from same _ _ _ enough (Nat.le_refl _)
  clear enough n a
  intro n
  induction n with
  | zero =>
    intro m a bottom _
    cases m with
    | zero => rfl
    | succ m =>
      cases above : F.parent a with
      | none => simp [ancestors, above]
      | some b => exact absurd (F.falls a b above) (by omega)
  | succ n ih =>
    intro m a enough enough'
    cases above : F.parent a with
    | none => cases m <;> simp [ancestors, above]
    | some b =>
      have lower := F.falls a b above
      cases m with
      | zero => omega
      | succ m => simp [ancestors, above, ih m b (by omega) (by omega)]

theorem line_of_root {a : α} (root : F.parent a = none) : F.line a = [a] := by
  cases rank : F.rank a <;> simp [line, ancestors, rank, root]

theorem line_of_parent {a b : α} (above : F.parent a = some b) : F.line a = a :: F.line b := by
  have lower := F.falls a b above
  cases rank : F.rank a with
  | zero => omega
  | succ n => simp [line, rank, ancestors, above, F.ancestors_eq (show F.rank b ≤ n by omega)]

theorem line_eq_cons (a : α) : ∃ rest, F.line a = a :: rest := by
  cases above : F.parent a with
  | none => exact ⟨[], F.line_of_root above⟩
  | some b => exact ⟨_, F.line_of_parent above⟩

theorem mem_line_self (a : α) : a ∈ F.line a := by
  obtain ⟨rest, whole⟩ := F.line_eq_cons a
  simp [whole]

theorem line_induction {P : α → Prop} (root : ∀ a, F.parent a = none → P a)
    (next : ∀ a b, F.parent a = some b → P b → P a) (a : α) : P a := by
  induction rank : F.rank a using Nat.strong_induction_on generalizing a with
  | _ n ih =>
    cases above : F.parent a with
    | none => exact root a above
    | some b => exact next a b above (ih _ (rank ▸ F.falls a b above) b rfl)

theorem line_suffix {a b : α} (member : b ∈ F.line a) : F.line b <:+ F.line a := by
  induction a using F.line_induction with
  | root a above =>
    rw [F.line_of_root above, List.mem_singleton] at member
    exact member ▸ List.suffix_rfl
  | next a p above ih =>
    rcases List.mem_cons.mp (F.line_of_parent above ▸ member) with rfl | later
    · exact List.suffix_rfl
    · rw [F.line_of_parent above]
      exact (ih later).trans (List.suffix_cons _ _)

theorem mem_line_trans {a b c : α} (first : b ∈ F.line a) (second : c ∈ F.line b) : c ∈ F.line a :=
  (F.line_suffix first).subset second

theorem line_isChain (a : α) : (F.line a).IsChain fun child parent => F.parent child = some parent := by
  induction a using F.line_induction with
  | root a above => simp [F.line_of_root above]
  | next a p above ih =>
    obtain ⟨rest, whole⟩ := F.line_eq_cons p
    rw [F.line_of_parent above, whole, List.isChain_cons_cons]
    exact ⟨above, whole ▸ ih⟩

theorem line_falls (a : α) : (F.line a).Pairwise fun a b => F.rank b < F.rank a :=
  (List.IsChain.imp (fun _ _ => F.falls _ _) (F.line_isChain a)).pairwise

section Path

variable [DecidableEq α]

/-- From an ancestor up to the node, both included. -/
def path (ancestor a : α) : List α :=
  ancestor :: ((F.line a).takeWhile (· ≠ ancestor)).reverse

variable {ancestor a : α} (member : ancestor ∈ F.line a)

include member

theorem path_eq :
    ∃ above below, F.line a = above ++ ancestor :: below ∧ F.path ancestor a = ancestor :: above.reverse := by
  obtain ⟨above, below, split, absent⟩ := List.eq_append_cons_of_mem member
  have passes : ∀ x ∈ above, decide (x ≠ ancestor) = true := by
    intro x inside
    simp only [decide_eq_true_eq]
    rintro rfl
    exact absent inside
  refine ⟨above, below, split, ?_⟩
  rw [path, split, List.takeWhile_append_of_pos passes]
  simp

theorem path_isChain : (F.path ancestor a).IsChain fun parent child => F.parent child = some parent := by
  obtain ⟨above, below, split, path⟩ := F.path_eq member
  have upTo : above ++ [ancestor] <+: F.line a := ⟨below, by simp [split]⟩
  have chain := List.IsChain.prefix (F.line_isChain a) upTo
  rw [← List.isChain_reverse] at chain
  simpa [path, flip] using chain

theorem path_getLast : (F.path ancestor a).getLast (by simp [path]) = a := by
  obtain ⟨rest, whole⟩ := F.line_eq_cons a
  by_cases same : a = ancestor
  · subst same
    simp [path, whole]
  · simp [path, whole, same]

end Path

end Forest

end Marigold.Lib
