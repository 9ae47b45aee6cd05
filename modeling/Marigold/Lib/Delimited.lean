import Marigold.Lib.Bytes

/-!
# Self-delimiting codes

A code from which it can be told where it ends. Codes of this kind can be written one after the other
without separators, and lists of them without a count.
-/

namespace Marigold.Lib

/-- Among the values with `P`, the code of a value can be told from what follows it. -/
def Delimits {α : Type} (P : α → Prop) (code : α → Bytes) : Prop :=
  ∀ ⦃a b : α⦄ ⦃x y : Bytes⦄, P a → P b → code a ++ x = code b ++ y → a = b ∧ x = y

namespace Delimits

variable {α β : Type} {P : α → Prop} {code : α → Bytes}

theorem fixed {width : Nat} (length : ∀ a, (code a).length = width) (injective : code.Injective) :
    Delimits (fun _ => True) code := by
  intro a b x y _ _ same
  obtain ⟨codes, rest⟩ := List.append_inj same (by rw [length, length])
  exact ⟨injective codes, rest⟩

theorem inj (delimits : Delimits P code) {a b : α} (ha : P a) (hb : P b) (same : code a = code b) : a = b := by
  have padded : code a ++ [] = code b ++ [] := by rw [same]
  exact (delimits ha hb padded).1

theorem pair {R : β → Prop} {code' : β → Bytes} (first : Delimits P code) (second : Delimits R code') :
    Delimits (fun p : α × β => P p.1 ∧ R p.2) (fun p => code p.1 ++ code' p.2) := by
  intro p q x y hp hq same
  simp only [List.append_assoc] at same
  obtain ⟨fst, rest⟩ := first hp.1 hq.1 same
  obtain ⟨snd, rest⟩ := second hp.2 hq.2 rest
  exact ⟨Prod.ext fst snd, rest⟩

theorem comap {f : β → α} (delimits : Delimits P code) (injective : f.Injective) :
    Delimits (fun b => P (f b)) (fun b => code (f b)) := by
  intro a b x y ha hb same
  obtain ⟨parts, rest⟩ := delimits ha hb same
  exact ⟨injective parts, rest⟩

theorem mono {Q : α → Prop} (delimits : Delimits P code) (sub : ∀ a, Q a → P a) : Delimits Q code :=
  fun _ _ _ _ ha hb same => delimits (sub _ ha) (sub _ hb) same

/-- A byte string with its length in front. -/
theorem counted (width : Nat) : Delimits (fun bs : Bytes => bs.length < 256 ^ width)
    (fun bs => leBytes width bs.length ++ bs) := by
  intro a b x y ha hb same
  simp only [List.append_assoc] at same
  obtain ⟨lengths, rest⟩ := List.append_inj same (by rw [leBytes_length, leBytes_length])
  exact List.append_inj rest (leBytes_inj ha hb lengths)

/-- A list needs no count, if no code is empty. -/
theorem flatMap (delimits : Delimits P code) (nonempty : ∀ a, code a ≠ []) {xs ys : List α} (hxs : ∀ a ∈ xs, P a)
    (hys : ∀ b ∈ ys, P b) (same : xs.flatMap code = ys.flatMap code) : xs = ys := by
  induction xs generalizing ys with
  | nil =>
    cases ys with
    | nil => rfl
    | cons b ys =>
      rw [List.flatMap_nil, List.flatMap_cons, eq_comm, List.append_eq_nil_iff] at same
      exact absurd same.1 (nonempty b)
  | cons a xs ih =>
    cases ys with
    | nil =>
      rw [List.flatMap_nil, List.flatMap_cons, List.append_eq_nil_iff] at same
      exact absurd same.1 (nonempty a)
    | cons b ys =>
      rw [List.forall_mem_cons] at hxs hys
      rw [List.flatMap_cons, List.flatMap_cons] at same
      obtain ⟨rfl, rest⟩ := delimits hxs.1 hys.1 same
      rw [ih hxs.2 hys.2 rest]

end Delimits

end Marigold.Lib
