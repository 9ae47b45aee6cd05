import Mathlib.Algebra.Order.BigOperators.Group.List
import Mathlib.Tactic.Linarith
import Mathlib.Tactic.Ring

/-!
# Covers from a bounded stock

Pieces of finitely many kinds, each kind with a unit value and a number of pieces in stock; the units divide
one another, smallest first. A choice that takes as few pieces as possible of each kind in turn, from the
smallest, takes the fewest pieces of all choices with its worth.
-/

namespace Marigold.Lib.Stock

section Knapsack

variable {ι : Type} {unit held : ι → Nat} {kinds : List ι} {i : ι} {a b c : ι → Nat}

/-- What so many pieces of each kind are worth. -/
def worth (unit : ι → Nat) (kinds : List ι) (choice : ι → Nat) : Nat :=
  (kinds.map fun i => choice i * unit i).sum

def pieces (kinds : List ι) (choice : ι → Nat) : Nat := (kinds.map choice).sum

def Within (held : ι → Nat) (kinds : List ι) (choice : ι → Nat) : Prop := ∀ i ∈ kinds, choice i ≤ held i

/-- Of the first kind as few pieces as its worth allows, and so on with the others. -/
def Sparing (unit held : ι → Nat) : List ι → (ι → Nat) → Prop
  | [], _ => True
  | i :: rest, choice =>
    (∀ other, Within held (i :: rest) other →
      worth unit (i :: rest) other = worth unit (i :: rest) choice → choice i ≤ other i) ∧
      Sparing unit held rest choice

@[simp] theorem worth_nil (choice : ι → Nat) : worth unit [] choice = 0 := rfl

@[simp] theorem worth_cons (choice : ι → Nat) :
    worth unit (i :: kinds) choice = choice i * unit i + worth unit kinds choice := List.sum_cons

@[simp] theorem pieces_cons (choice : ι → Nat) :
    pieces (i :: kinds) choice = choice i + pieces kinds choice := List.sum_cons

theorem worth_congr (same : ∀ i ∈ kinds, a i = b i) : worth unit kinds a = worth unit kinds b := by
  unfold worth
  rw [List.map_congr_left fun i member => by rw [same i member]]

theorem pieces_congr (same : ∀ i ∈ kinds, a i = b i) : pieces kinds a = pieces kinds b := by
  unfold pieces
  rw [List.map_congr_left same]

theorem within_cons : Within held (i :: kinds) c ↔ c i ≤ held i ∧ Within held kinds c :=
  List.forall_mem_cons

theorem worth_scaled {unit' : ι → Nat} {u : Nat} (scaled : ∀ i, unit' i = unit i * u) (choice : ι → Nat) :
    worth unit' kinds choice = worth unit kinds choice * u := by
  induction kinds with
  | nil => rw [worth_nil, worth_nil, Nat.zero_mul]
  | cons i rest ih => rw [worth_cons, worth_cons, ih, scaled, Nat.add_mul, Nat.mul_assoc]

theorem dvd_worth {u : Nat} (divides : ∀ i ∈ kinds, u ∣ unit i) (choice : ι → Nat) : u ∣ worth unit kinds choice := by
  induction kinds with
  | nil => exact dvd_zero u
  | cons i rest ih =>
    obtain ⟨first, others⟩ := List.forall_mem_cons.mp divides
    rw [worth_cons]
    exact Nat.dvd_add (Dvd.dvd.mul_left first _) (ih others)

variable [DecidableEq ι]

theorem within_update {n : Nat} (new : i ∉ kinds) :
    Within held (i :: kinds) (Function.update c i n) ↔ n ≤ held i ∧ Within held kinds c := by
  rw [within_cons, Function.update_self]
  refine and_congr_right fun _ => forall₂_congr fun j member => ?_
  rw [Function.update_of_ne (ne_of_mem_of_not_mem member new)]

theorem worth_update {n : Nat} (new : i ∉ kinds) :
    worth unit (i :: kinds) (Function.update c i n) = n * unit i + worth unit kinds c := by
  rw [worth_cons, Function.update_self]
  congr 1
  exact worth_congr fun j member => Function.update_of_ne (ne_of_mem_of_not_mem member new) _ _

theorem pieces_update {n : Nat} (new : i ∉ kinds) :
    pieces (i :: kinds) (Function.update c i n) = n + pieces kinds c := by
  rw [pieces_cons, Function.update_self]
  congr 1
  exact pieces_congr fun j member => Function.update_of_ne (ne_of_mem_of_not_mem member new) _ _

/-- A bound in large units is one in small ones. -/
theorem bound_of_unit_le {u d x y v w : Nat} (small : u ≤ d) (le : v ≤ w) (bound : d * x + v ≤ d * y + w) :
    u * x + v ≤ u * y + w := by
  rcases Nat.le_total x y with fewer | more
  · exact Nat.add_le_add (Nat.mul_le_mul_left u fewer) le
  · obtain ⟨n, rfl⟩ := Nat.exists_eq_add_of_le more
    have extra : u * n ≤ d * n := Nat.mul_le_mul_right n small
    rw [Nat.mul_add] at bound ⊢
    omega

section

variable (once : kinds.Nodup) (chain : kinds.Pairwise fun i j => unit i ∣ unit j)
  (positive : ∀ i ∈ kinds, 0 < unit i) (withinA : Within held kinds a) (withinB : Within held kinds b)

include once chain positive withinA withinB

/-- Worth more by a difference, a choice needs not more pieces than the difference has units. -/
theorem exists_pieces_le {u : Nat} (least : ∀ i ∈ kinds, u ≤ unit i) (more : worth unit kinds a ≤ worth unit kinds b) :
    ∃ c, Within held kinds c ∧ worth unit kinds c = worth unit kinds b ∧
      u * pieces kinds c + worth unit kinds a ≤ u * pieces kinds a + worth unit kinds b := by
  induction kinds generalizing u with
  | nil => exact ⟨b, withinB, rfl, le_refl _⟩
  | cons i rest ih =>
    obtain ⟨new, once⟩ := List.nodup_cons.mp once
    obtain ⟨divides, chain⟩ := List.pairwise_cons.mp chain
    obtain ⟨first, positive⟩ := List.forall_mem_cons.mp positive
    obtain ⟨small, -⟩ := List.forall_mem_cons.mp least
    obtain ⟨heldA, withinA⟩ := within_cons.mp withinA
    obtain ⟨heldB, withinB⟩ := within_cons.mp withinB
    rw [worth_cons, worth_cons] at more
    by_cases up : worth unit rest a ≤ worth unit rest b
    · -- the other kinds make up their own difference, with the pieces of `b` for the first
      obtain ⟨c, withinC, sameC, fewer⟩ := ih once chain positive withinA withinB
        (fun j member => Nat.le_of_dvd (positive j member) (divides j member)) up
      refine ⟨Function.update c i (b i), (within_update new).mpr ⟨heldB, withinC⟩, ?_, ?_⟩
      · rw [worth_update new, sameC, worth_cons]
      · rw [pieces_update new, pieces_cons, worth_cons, worth_cons]
        refine bound_of_unit_le small more ?_
        linarith
    · -- the other kinds as in `a`, and what is left over it in pieces of the first kind
      obtain ⟨q, same⟩ : unit i ∣ worth unit rest a - worth unit rest b :=
        Nat.dvd_sub (dvd_worth divides a) (dvd_worth divides b)
      have room : q ≤ b i := by
        refine Nat.le_of_mul_le_mul_left ?_ first
        rw [← same, Nat.mul_comm]
        omega
      obtain ⟨n, split⟩ := Nat.exists_eq_add_of_le room
      have even : n * unit i + worth unit rest a = b i * unit i + worth unit rest b := by
        have whole : worth unit rest a = worth unit rest b + unit i * q := by omega
        rw [whole, split]
        ring
      refine ⟨Function.update a i n, (within_update new).mpr ⟨by omega, withinA⟩, ?_, ?_⟩
      · rw [worth_update new, worth_cons, even]
      · rw [pieces_update new, pieces_cons, worth_cons, worth_cons]
        refine bound_of_unit_le small more ?_
        linarith

/-- Sparing with the small pieces is sparing with pieces. -/
theorem Sparing.pieces_le (sparing : Sparing unit held kinds a)
    (same : worth unit kinds b = worth unit kinds a) : pieces kinds a ≤ pieces kinds b := by
  induction kinds generalizing b with
  | nil => exact le_refl _
  | cons i rest ih =>
    have few : a i ≤ b i := sparing.1 b withinB same
    obtain ⟨new, once⟩ := List.nodup_cons.mp once
    obtain ⟨divides, chain⟩ := List.pairwise_cons.mp chain
    obtain ⟨first, positive⟩ := List.forall_mem_cons.mp positive
    have restA := (within_cons.mp withinA).2
    have restB := (within_cons.mp withinB).2
    rw [worth_cons, worth_cons] at same
    have fewer : a i * unit i ≤ b i * unit i := Nat.mul_le_mul_right _ few
    -- what `a` has more in the other kinds, it has in fewer pieces than `b` has more of the first kind
    obtain ⟨c, withinC, sameC, bound⟩ := exists_pieces_le once chain positive restB restA
      (fun j member => Nat.le_of_dvd (positive j member) (divides j member)) (by omega)
    have step := ih once chain positive restA withinC sparing.2 sameC
    have scaled : unit i * pieces rest a ≤ unit i * pieces rest c := Nat.mul_le_mul_left _ step
    rw [pieces_cons, pieces_cons]
    refine Nat.le_of_mul_le_mul_left ?_ first
    linarith

end

theorem worth_drop (once : kinds.Nodup) (member : i ∈ kinds) (some : 0 < c i) :
    worth unit kinds (Function.update c i (c i - 1)) + unit i = worth unit kinds c := by
  induction kinds with
  | nil => cases member
  | cons j rest ih =>
    obtain ⟨new, once⟩ := List.nodup_cons.mp once
    rcases List.mem_cons.mp member with rfl | later
    · rw [worth_update new, worth_cons]
      obtain ⟨n, taken⟩ := Nat.exists_eq_add_of_le' some
      rw [taken, Nat.add_sub_cancel, Nat.add_mul]
      omega
    · have other : j ≠ i := fun same => new (same ▸ later)
      rw [worth_cons, Function.update_of_ne other, worth_cons, Nat.add_assoc, ih once later]

theorem exists_of_worth_pos (some : 0 < worth unit kinds c) : ∃ i ∈ kinds, 0 < c i := by
  by_contra none
  have zero : ∀ i ∈ kinds, c i = 0 := fun i member =>
    Nat.eq_zero_of_not_pos fun taken => none ⟨i, member, taken⟩
  rw [worth_congr (b := fun _ => 0) zero] at some
  simp [worth] at some

/-- The least worth that covers a target is over it by less than the largest piece in stock. -/
theorem exists_least_cover {target largest : Nat} (once : kinds.Nodup) (positive : ∀ i ∈ kinds, 0 < unit i)
    (large : ∀ i ∈ kinds, 0 < held i → unit i ≤ largest) (enough : target ≤ worth unit kinds held) :
    ∃ c, Within held kinds c ∧ target ≤ worth unit kinds c ∧ worth unit kinds c ≤ target + largest ∧
      ∀ other, Within held kinds other → target ≤ worth unit kinds other →
        worth unit kinds c ≤ worth unit kinds other := by
  classical
  have some : ∃ w c, Within held kinds c ∧ worth unit kinds c = w ∧ target ≤ w :=
    ⟨_, held, fun _ _ => le_refl _, rfl, enough⟩
  obtain ⟨c, within, same, covers⟩ := Nat.find_spec some
  have least : ∀ other, Within held kinds other → target ≤ worth unit kinds other →
      worth unit kinds c ≤ worth unit kinds other := by
    intro other within' covers'
    rw [same]
    exact Nat.find_min' some ⟨other, within', rfl, covers'⟩
  refine ⟨c, within, same ▸ covers, ?_, least⟩
  by_contra far
  have nonzero : 0 < worth unit kinds c := by omega
  obtain ⟨i, member, taken⟩ := exists_of_worth_pos nonzero
  have dropped : worth unit kinds (Function.update c i (c i - 1)) + unit i = worth unit kinds c :=
    worth_drop once member taken
  have smaller := large i member (lt_of_lt_of_le taken (within i member))
  have rest : Within held kinds (Function.update c i (c i - 1)) := by
    intro j inside
    rcases eq_or_ne j i with rfl | other
    · rw [Function.update_self]
      exact (Nat.sub_le _ _).trans (within j inside)
    · rw [Function.update_of_ne other]
      exact within j inside
  have cover := least _ rest (by omega)
  have counts := positive i member
  omega

end Knapsack

end Marigold.Lib.Stock
