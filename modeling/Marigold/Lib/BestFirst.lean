import Mathlib.Data.List.Basic
import Mathlib.Order.WellFounded

/-!
# Best-first search down a graph

Nodes with parents of a smaller key. The search keeps a heap, tries its greatest node, and puts the
parents of a node that was refused into the heap, except those that lie in the past of a node still
there. It ends, and the first node it takes is the greatest of the good ones.
-/

namespace Marigold.Lib

variable {α κ σ ε : Type}

/-- The node itself, its parents, their parents, and so on. -/
def Past (parents : α → List α) : α → α → Prop :=
  Relation.ReflTransGen fun p a => p ∈ parents a

section Reaches

variable [DecidableEq α]

/-- The past, searched so many generations deep. -/
def reachesWithin (parents : α → List α) : Nat → α → α → Bool
  | 0, a, b => a = b
  | n + 1, a, b => a = b || (parents b).any (reachesWithin parents n a)

theorem reachesWithin_iff {parents : α → List α} {rank : α → Nat}
    (falls : ∀ a, ∀ p ∈ parents a, rank p < rank a) {n : Nat} {a b : α} (enough : rank b ≤ n) :
    reachesWithin parents n a b = true ↔ Past parents a b := by
  induction n generalizing b with
  | zero =>
    have none : parents b = [] := by
      refine List.eq_nil_iff_forall_not_mem.mpr fun p member => ?_
      have lower := falls b p member
      omega
    rw [Past, Relation.ReflTransGen.cases_tail_iff]
    simp [reachesWithin, none, eq_comm]
  | succ n ih =>
    rw [Past, Relation.ReflTransGen.cases_tail_iff, reachesWithin, Bool.or_eq_true, List.any_eq_true,
      decide_eq_true_iff]
    refine or_congr eq_comm (exists_congr fun p => ?_)
    constructor
    · rintro ⟨member, reached⟩
      have lower := falls b p member
      exact ⟨(ih (by omega)).mp reached, member⟩
    · rintro ⟨past, member⟩
      have lower := falls b p member
      exact ⟨member, (ih (by omega)).mpr past⟩

end Reaches

variable [LinearOrder κ]

/-- A node of the greatest key. -/
def maxBy (key : α → κ) : List α → Option α
  | [] => none
  | a :: rest =>
    match maxBy key rest with
    | none => some a
    | some b => some (if key a ≤ key b then b else a)

section MaxBy

variable {key : α → κ} {heap : List α} {a : α}

theorem maxBy_eq_none : maxBy key heap = none ↔ heap = [] := by
  cases heap with
  | nil => simp [maxBy]
  | cons a rest =>
    simp only [maxBy, reduceCtorEq, iff_false]
    cases maxBy key rest <;> simp

theorem mem_of_maxBy (greatest : maxBy key heap = some a) : a ∈ heap := by
  induction heap generalizing a with
  | nil => cases greatest
  | cons b rest ih =>
    rw [maxBy] at greatest
    cases tail : maxBy key rest with
    | none =>
      rw [tail] at greatest
      cases greatest
      exact .head _
    | some c =>
      simp only [tail, Option.some.injEq] at greatest
      split at greatest
      · exact .tail _ (greatest ▸ ih tail)
      · exact greatest ▸ .head _

theorem le_of_maxBy (greatest : maxBy key heap = some a) {b : α} (member : b ∈ heap) : key b ≤ key a := by
  induction heap generalizing a with
  | nil => cases greatest
  | cons c rest ih =>
    rw [maxBy] at greatest
    cases tail : maxBy key rest with
    | none =>
      rw [tail] at greatest
      cases greatest
      rw [maxBy_eq_none.mp tail, List.mem_singleton] at member
      rw [member]
    | some d =>
      simp only [tail, Option.some.injEq] at greatest
      subst greatest
      split
      next less =>
        rcases List.mem_cons.mp member with rfl | later
        · exact less
        · exact ih tail later
      next more =>
        rcases List.mem_cons.mp member with rfl | later
        · exact le_rfl
        · exact (ih tail later).trans (le_of_not_ge more)

end MaxBy

/-- What a search is about. -/
structure BestFirst (α κ σ ε : Type) where
  key : α → κ
  parents : α → List α
  inPast : α → α → Bool
  /-- Parents that do not pass are never tried. -/
  keep : α → Bool
  /-- Takes the node or refuses it, with the state after it. -/
  attempt : σ → α → Except ε (Bool × σ)
  /-- The failure when nothing is left to try. -/
  exhausted : ε

namespace BestFirst

section Heap

omit [LinearOrder κ]

variable (S : BestFirst α κ σ ε)

def push (heap : List α) (p : α) : List α :=
  if S.keep p && !heap.any (S.inPast p) then p :: heap else heap

/-- The node is in the past of one in the heap. -/
def Under (heap : List α) (a : α) : Prop := ∃ x ∈ heap, Past S.parents a x

variable {S} {parents heap : List α}

theorem mem_of_mem_pushed {b : α} (member : b ∈ parents.foldl S.push heap) : b ∈ heap ∨ b ∈ parents := by
  induction parents generalizing heap with
  | nil => exact .inl member
  | cons p rest ih =>
    rcases ih member with before | later
    · rw [push] at before
      split at before
      · rcases List.mem_cons.mp before with rfl | old
        · exact .inr List.mem_cons_self
        · exact .inl old
      · exact .inl before
    · exact .inr (List.mem_cons_of_mem _ later)

theorem mem_pushed {b : α} (member : b ∈ heap) : b ∈ parents.foldl S.push heap := by
  induction parents generalizing heap with
  | nil => exact member
  | cons p rest ih =>
    refine ih ?_
    rw [push]
    split
    · exact .tail _ member
    · exact member

theorem countP_pushed {counted : α → Bool} (none : ∀ p ∈ parents, counted p = false) :
    (parents.foldl S.push heap).countP counted = heap.countP counted := by
  induction parents generalizing heap with
  | nil => rfl
  | cons p rest ih =>
    rw [List.forall_mem_cons] at none
    rw [List.foldl_cons, ih none.2, push]
    split
    · simp [none.1]
    · rfl

end Heap

section Run

variable [DecidableEq α] (S : BestFirst α κ σ ε)

/-- The heap after a node was refused. -/
def refused (heap : List α) (a : α) : List α := (S.parents a).foldl S.push (heap.erase a)

/-- The result, unless the fuel is spent before. -/
def run : Nat → List α → σ → Option (Except ε (α × List α × σ))
  | 0, _, _ => none
  | fuel + 1, heap, s =>
    match maxBy S.key heap with
    | none => some (.error S.exhausted)
    | some a =>
      match S.attempt s a with
      | .error e => some (.error e)
      | .ok (true, s') => some (.ok (a, heap.erase a, s'))
      | .ok (false, s') => run fuel (S.refused heap a) s'

/-- Parents have smaller keys, and `inPast` is exact. -/
structure Lawful : Prop where
  lighter : ∀ a, ∀ p ∈ S.parents a, S.key p < S.key a
  exact : ∀ a b, S.inPast a b = true ↔ Past S.parents a b

variable {S} {heap : List α} {a b : α} {s s' : σ}

omit [LinearOrder κ] in
theorem mem_refused (member : b ∈ S.refused heap a) : b ∈ heap ∨ b ∈ S.parents a :=
  (mem_of_mem_pushed member).imp_left List.mem_of_mem_erase

theorem run_cases (S : BestFirst α κ σ ε) (fuel : Nat) (heap : List α) (s : σ) :
    maxBy S.key heap = none ∧ S.run (fuel + 1) heap s = some (.error S.exhausted) ∨ ∃ a, maxBy S.key heap = some a ∧
        ((∃ e, S.attempt s a = .error e ∧ S.run (fuel + 1) heap s = some (.error e)) ∨
          (∃ s', S.attempt s a = .ok (true, s') ∧ S.run (fuel + 1) heap s = some (.ok (a, heap.erase a, s'))) ∨
          ∃ s', S.attempt s a = .ok (false, s') ∧ S.run (fuel + 1) heap s = S.run fuel (S.refused heap a) s') := by
  rw [run]
  cases greatest : maxBy S.key heap with
  | none => exact .inl ⟨rfl, rfl⟩
  | some a =>
    refine .inr ⟨a, rfl, ?_⟩
    rcases attempted : S.attempt s a with e | ⟨_ | _, s'⟩
    · exact .inl ⟨e, rfl, by simp only [attempted]⟩
    · exact .inr (.inr ⟨s', rfl, by simp only [attempted]⟩)
    · exact .inr (.inl ⟨s', rfl, by simp only [attempted]⟩)

/-! ## Termination -/

theorem run_mono {fuel more : Nat} (le : fuel ≤ more) {outcome : Except ε (α × List α × σ)}
    (result : S.run fuel heap s = some outcome) : S.run more heap s = some outcome := by
  induction fuel generalizing more heap s with
  | zero => cases result
  | succ fuel ih =>
    obtain ⟨more, rfl⟩ := Nat.exists_eq_add_of_le' (Nat.le_of_add_left_le le)
    rcases S.run_cases fuel heap s with ⟨none, stops⟩ | ⟨a, greatest, ⟨e, step, stops⟩ |
      ⟨s', step, stops⟩ | ⟨s', step, stops⟩⟩
    · simp only [run, none]
      exact stops.symm.trans result
    · simp only [run, greatest, step]
      exact stops.symm.trans result
    · simp only [run, greatest, step]
      exact stops.symm.trans result
    · simp only [run, greatest, step]
      exact ih (by omega) (stops.symm.trans result)

/-- There is a result. -/
def Ends (S : BestFirst α κ σ ε) (heap : List α) (s : σ) : Prop :=
  ∃ fuel outcome, S.run fuel heap s = some outcome

private theorem ends_of_refused
    (next : ∀ a s', maxBy S.key heap = some a → S.Ends (S.refused heap a) s') : S.Ends heap s := by
  rcases S.run_cases 0 heap s with ⟨_, stops⟩ | ⟨a, greatest, ⟨_, _, stops⟩ | ⟨_, _, stops⟩ | ⟨s', step, _⟩⟩
  · exact ⟨1, _, stops⟩
  · exact ⟨1, _, stops⟩
  · exact ⟨1, _, stops⟩
  · obtain ⟨fuel, outcome, result⟩ := next a s' greatest
    refine ⟨fuel + 1, outcome, ?_⟩
    simp only [run, greatest, step, result]

/-- No key is above `k`: each refusal leaves fewer nodes with that key, or none. -/
private theorem ends_below [WellFoundedLT κ] (lawful : S.Lawful) (k : κ) (n : Nat) (heap : List α)
    (s : σ) (below : ∀ b ∈ heap, S.key b ≤ k) (count : heap.countP (S.key · = k) = n) : S.Ends heap s := by
  induction k using WellFoundedLT.induction generalizing n heap s with
  | ind k outer =>
    induction n using Nat.strong_induction_on generalizing heap s with
    | _ n inner =>
      refine ends_of_refused fun a s' greatest => ?_
      have member := mem_of_maxBy greatest
      -- What is put into the heap is below the refused node.
      have lower : ∀ b ∈ S.refused heap a, S.key b ≤ S.key a := by
        intro b inside
        rcases mem_refused inside with before | parent
        · exact le_of_maxBy greatest before
        · exact (lawful.lighter a b parent).le
      rcases (below a member).lt_or_eq with less | same
      · exact outer (S.key a) less _ _ s' lower rfl
      · refine inner _ ?_ _ s' (same ▸ lower) rfl
        have none : ∀ p ∈ S.parents a, decide (S.key p = k) = false := by
          intro p parent
          exact decide_eq_false (same ▸ lawful.lighter a p parent).ne
        have erased : (heap.erase a).countP (S.key · = k) + 1 = heap.countP (S.key · = k) := by
          rw [(List.perm_cons_erase member).countP_eq, List.countP_cons_of_pos (by simp [same])]
        rw [refused, countP_pushed none]
        omega

theorem Lawful.ends [WellFoundedLT κ] (lawful : S.Lawful) (heap : List α) (s : σ) : S.Ends heap s := by
  cases greatest : maxBy S.key heap with
  | none => exact ends_of_refused fun a _ found => nomatch greatest.symm.trans found
  | some a => exact ends_below lawful (S.key a) _ heap s (fun _ => le_of_maxBy greatest) rfl

/-! ## What is found -/

omit [DecidableEq α] in
theorem Lawful.key_le (lawful : S.Lawful) (past : Past S.parents a b) : S.key a ≤ S.key b := by
  induction past with
  | refl => exact le_rfl
  | tail _ parent ih => exact ih.trans (lawful.lighter _ _ parent).le

omit [DecidableEq α] in
/-- A parent that passes is in the past of a node of the new heap. -/
theorem Lawful.under_pushed (lawful : S.Lawful) {parents : List α} {p : α} (member : p ∈ parents)
    (kept : S.keep p = true) : S.Under (parents.foldl S.push heap) p := by
  induction parents generalizing heap with
  | nil => cases member
  | cons q rest ih =>
    rcases List.mem_cons.mp member with rfl | later
    · cases covered : heap.any (S.inPast p) with
      | true =>
        obtain ⟨x, inHeap, past⟩ := List.any_eq_true.mp covered
        exact ⟨x, mem_pushed inHeap, (lawful.exact p x).mp past⟩
      | false =>
        refine ⟨p, ?_, .refl⟩
        rw [List.foldl_cons, push, kept, covered]
        exact mem_pushed List.mem_cons_self
    · exact ih later

/-- What taking and refusing mean: an invariant of the state, the good nodes, the states in which one
was taken, and the failures. -/
structure Sound (S : BestFirst α κ σ ε) (invariant : σ → Prop) (good : α → Prop) (took : σ → α → Prop)
    (fails : ε → Prop) : Prop where
  attempt : ∀ s a, invariant s → (∃ e, S.attempt s a = .error e ∧ fails e) ∨
    ∃ s', invariant s' ∧ (S.attempt s a = .ok (true, s') ∧ good a ∧ took s' a ∨
      S.attempt s a = .ok (false, s') ∧ ¬ good a)
  /-- Nothing over a good node is dropped. -/
  keep : ∀ a b, good a → Past S.parents a b → S.keep b = true

variable {invariant : σ → Prop} {good : α → Prop} {took : σ → α → Prop} {fails : ε → Prop}

/-- Refusing a node that is not good loses no good one. -/
theorem Lawful.under_refused (lawful : S.Lawful) (sound : S.Sound invariant good took fails)
    (refuse : ¬ good a) (isGood : good b) (under : S.Under heap b) : S.Under (S.refused heap a) b := by
  obtain ⟨x, inHeap, past⟩ := under
  by_cases here : x = a
  · subst here
    -- The good node is another one, so it is in the past of a parent.
    rcases past.cases_tail with same | ⟨p, past', parent⟩
    · exact absurd (same ▸ isGood) refuse
    · obtain ⟨y, inHeap', past''⟩ := lawful.under_pushed parent (sound.keep b p isGood past')
      exact ⟨y, inHeap', past'.trans past''⟩
  · exact ⟨x, mem_pushed ((List.mem_erase_of_ne here).mpr inHeap), past⟩

theorem under_of_refused (greatest : maxBy S.key heap = some a) (under : S.Under (S.refused heap a) b) :
    S.Under heap b := by
  obtain ⟨x, inside, past⟩ := under
  rcases mem_refused inside with before | parent
  · exact ⟨x, before, past⟩
  · exact ⟨a, mem_of_maxBy greatest, past.tail parent⟩

variable (lawful : S.Lawful) (sound : S.Sound invariant good took fails) {fuel : Nat} (start : invariant s)

include lawful sound start

/-- The node taken is the greatest good one. -/
theorem Lawful.run_ok {rest : List α} (found : S.run fuel heap s = some (.ok (a, rest, s'))) :
    invariant s' ∧ took s' a ∧ good a ∧ S.Under heap a ∧ ∀ b, good b → S.Under heap b → S.key b ≤ S.key a := by
  induction fuel generalizing heap s with
  | zero => cases found
  | succ fuel ih =>
    rcases S.run_cases fuel heap s with ⟨_, stops⟩ | ⟨c, greatest, ⟨_, _, stops⟩ | ⟨s₁, step, stops⟩ |
      ⟨s₁, step, stops⟩⟩
    · cases stops.symm.trans found
    · cases stops.symm.trans found
    · -- Every node under the heap is at most its greatest one.
      cases stops.symm.trans found
      rcases sound.attempt s a start with ⟨_, failed, _⟩ | ⟨_, kept, ⟨taken, isGood, at_⟩ | ⟨refused, _⟩⟩
      · cases step.symm.trans failed
      · cases step.symm.trans taken
        refine ⟨kept, at_, isGood, ⟨a, mem_of_maxBy greatest, .refl⟩, fun b _ ⟨x, inHeap, past⟩ => ?_⟩
        exact (lawful.key_le past).trans (le_of_maxBy greatest inHeap)
      · cases step.symm.trans refused
    · rw [stops] at found
      rcases sound.attempt s c start with ⟨_, failed, _⟩ | ⟨_, kept, ⟨taken, _⟩ | ⟨refused, notGood⟩⟩
      · cases step.symm.trans failed
      · cases step.symm.trans taken
      · cases step.symm.trans refused
        obtain ⟨kept', at_, isGood, under, highest⟩ := ih kept found
        exact ⟨kept', at_, isGood, under_of_refused greatest under, fun b bGood bUnder =>
          highest b bGood (lawful.under_refused sound notGood bGood bUnder)⟩

/-- The search fails in an attempt, or when no good node was left from the start. -/
theorem Lawful.run_error {e : ε} (failed : S.run fuel heap s = some (.error e)) :
    fails e ∨ e = S.exhausted ∧ ∀ b, good b → ¬ S.Under heap b := by
  induction fuel generalizing heap s with
  | zero => cases failed
  | succ fuel ih =>
    rcases S.run_cases fuel heap s with ⟨empty, stops⟩ | ⟨c, greatest, ⟨_, step, stops⟩ | ⟨_, _, stops⟩ |
      ⟨s₁, step, stops⟩⟩
    · cases stops.symm.trans failed
      refine .inr ⟨rfl, fun b _ ⟨x, inHeap, _⟩ => ?_⟩
      rw [maxBy_eq_none.mp empty] at inHeap
      cases inHeap
    · cases stops.symm.trans failed
      rcases sound.attempt s c start with ⟨_, failed', isFailure⟩ | ⟨_, _, ⟨taken, _⟩ | ⟨refused, _⟩⟩
      · cases step.symm.trans failed'
        exact .inl isFailure
      · cases step.symm.trans taken
      · cases step.symm.trans refused
    · cases stops.symm.trans failed
    · rw [stops] at failed
      rcases sound.attempt s c start with ⟨_, failed', _⟩ | ⟨_, kept, ⟨taken, _⟩ | ⟨refused, notGood⟩⟩
      · cases step.symm.trans failed'
      · cases step.symm.trans taken
      · cases step.symm.trans refused
        rcases ih kept failed with isFailure | ⟨exhausted, nothing⟩
        · exact .inl isFailure
        · exact .inr ⟨exhausted, fun b bGood bUnder =>
            nothing b bGood (lawful.under_refused sound notGood bGood bUnder)⟩

end Run

end BestFirst

end Marigold.Lib
