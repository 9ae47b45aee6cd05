import Mathlib.Data.List.NodupEquivFin

/-!
# Ordered matches

`List.SublistForall₂ R xs ys` says that each of the `xs` has a partner among the `ys`, in order. Looking for partners
greedily is enough: an item that fits may be taken, and one that does not fit may be left out.
-/

namespace Marigold.Lib

open List

variable {α β : Type*} {R : α → β → Prop} {x : α} {y : β} {xs : List α} {ys : List β}

theorem SublistForall₂.length_le (fits : SublistForall₂ R xs ys) : xs.length ≤ ys.length := by
  obtain ⟨zs, pairs, sub⟩ := sublistForall₂_iff.mp fits
  exact pairs.length_eq ▸ sub.length_le

theorem SublistForall₂.tail (fits : SublistForall₂ R (x :: xs) ys) : SublistForall₂ R xs ys := by
  obtain ⟨zs, pairs, sub⟩ := sublistForall₂_iff.mp fits
  cases pairs with
  | cons _ rest => exact sublistForall₂_iff.mpr ⟨_, rest, (sublist_cons_self _ _).trans sub⟩

/-- If a match uses a later partner for the first item, then the first partner may be exchanged for it. -/
theorem sublistForall₂_cons_iff_of_fits (fit : R x y) :
    SublistForall₂ R (x :: xs) (y :: ys) ↔ SublistForall₂ R xs ys := by
  refine ⟨fun fits => ?_, .cons fit⟩
  cases fits with
  | cons _ rest => exact rest
  | cons_right rest => exact SublistForall₂.tail rest

theorem sublistForall₂_cons_iff_of_not (misfit : ¬R x y) :
    SublistForall₂ R (x :: xs) (y :: ys) ↔ SublistForall₂ R (x :: xs) ys := by
  refine ⟨fun fits => ?_, .cons_right⟩
  cases fits with
  | cons fit _ => exact absurd fit misfit
  | cons_right rest => exact rest

/-- A match is an embedding of the positions. -/
theorem sublistForall₂_iff_exists_orderEmbedding :
    SublistForall₂ R xs ys ↔ ∃ f : Fin xs.length ↪o Fin ys.length, ∀ i, R (xs.get i) (ys.get (f i)) := by
  rw [sublistForall₂_iff]
  constructor
  · rintro ⟨zs, pairs, sub⟩
    obtain ⟨f, same⟩ := sublist_iff_exists_fin_orderEmbedding_get_eq.mp sub
    have length := pairs.length_eq
    refine ⟨(Fin.castOrderIso length).toOrderEmbedding.trans f, fun i => ?_⟩
    have paired := pairs.get i.isLt (length ▸ i.isLt)
    rw [RelEmbedding.coe_trans, Function.comp_apply, ← same]
    exact paired
  · rintro ⟨f, fits⟩
    refine ⟨ofFn fun i => ys.get (f i), ?_, ?_⟩
    · refine forall₂_iff_get.mpr ⟨(length_ofFn ..).symm, fun i here there => ?_⟩
      simpa using fits ⟨i, here⟩
    · refine sublist_iff_exists_fin_orderEmbedding_get_eq.mpr
        ⟨(Fin.castOrderIso (length_ofFn ..)).toOrderEmbedding.trans f, fun i => ?_⟩
      rw [get_ofFn]
      rfl

end Marigold.Lib
