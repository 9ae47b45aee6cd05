import Mathlib.Algebra.Group.Nat.Defs
import Mathlib.Order.Basic
import Mathlib.Data.Nat.Basic
import Mathlib.Tactic.ByContra

/-!
# The leading bits of a word

Words read from the most significant bit, as the paths of a binary trie: bit 0 chooses at the root.
Two words lie in one subtree at depth `d` when their first `d` bits agree, and the order of the words
is the order of their paths.
-/

namespace Marigold.Lib.Bits

variable {w : Nat} {d e : Nat} {x y : BitVec w}

/-- The first `d` bits, with the others cleared. -/
def firstBits (d : Nat) (x : BitVec w) : BitVec w := (x >>> (w - d)) <<< (w - d)

/-- The word with the bit that decides at depth `d` set. -/
def withBit (d : Nat) (x : BitVec w) : BitVec w := x ||| BitVec.twoPow w (w - 1 - d)

theorem getMsbD_firstBits (x : BitVec w) (i : Nat) : (firstBits d x).getMsbD i = (decide (i < d) && x.getMsbD i) := by
  rw [firstBits, BitVec.getMsbD_shiftLeft, BitVec.getMsbD_ushiftRight, Nat.add_sub_cancel]
  by_cases inside : i < w
  · have bounds : i + (w - d) < w ↔ i < d := by omega
    have past : ¬ i + (w - d) < w - d := by omega
    simp [bounds, past]
  · have outside : x.getMsbD i = false := by simp [BitVec.getMsbD, inside]
    simp [outside]

theorem getMsbD_withBit (small : d < w) (x : BitVec w) (i : Nat) :
    (withBit d x).getMsbD i = (decide (i = d) || x.getMsbD i) := by
  have width : 0 < w := by omega
  rw [withBit, BitVec.getMsbD_or, BitVec.getMsbD_twoPow, Bool.or_comm]
  congr 1
  by_cases here : i = d
  · subst here
    simp
    omega
  · simp [here]
    omega

theorem ext_bits (same : ∀ i < w, x.getMsbD i = y.getMsbD i) : x = y :=
  BitVec.eq_of_getMsbD_eq fun i => same i

theorem firstBits_eq_iff : firstBits d x = firstBits d y ↔ ∀ i < d, x.getMsbD i = y.getMsbD i := by
  constructor
  · intro same i early
    have bits := congrArg (fun z => BitVec.getMsbD z i) same
    simpa [getMsbD_firstBits, early] using bits
  · intro same
    refine ext_bits fun i inside => ?_
    rw [getMsbD_firstBits, getMsbD_firstBits]
    by_cases early : i < d
    · rw [same i early]
    · simp [early]

@[simp] theorem firstBits_zero (x : BitVec w) : firstBits 0 x = 0#w :=
  ext_bits fun i _ => by simp [getMsbD_firstBits]

@[simp] theorem firstBits_width (x : BitVec w) : firstBits w x = x :=
  ext_bits fun i inside => by simp [getMsbD_firstBits, inside]

theorem firstBits_firstBits (less : d ≤ e) (x : BitVec w) : firstBits d (firstBits e x) = firstBits d x :=
  ext_bits fun i _ => by
    rw [getMsbD_firstBits, getMsbD_firstBits, getMsbD_firstBits]
    by_cases early : i < d
    · simp [early, show i < e by omega]
    · simp [early]

theorem firstBits_mono (less : d ≤ e) (same : firstBits e x = firstBits e y) : firstBits d x = firstBits d y := by
  rw [← firstBits_firstBits less x, same, firstBits_firstBits less]

theorem firstBits_succ (small : d < w) (x : BitVec w) : firstBits (d + 1) x =
      if x.getMsbD d then withBit d (firstBits d x) else firstBits d x := by
  refine ext_bits fun i _ => ?_
  by_cases here : i = d
  · subst here
    cases bit : x.getMsbD i <;> simp [getMsbD_firstBits, getMsbD_withBit small, bit]
  · have bound : (i < d + 1) = (i < d) := by
      apply propext
      omega
    cases x.getMsbD d <;> simp [getMsbD_firstBits, getMsbD_withBit small, here, bound]

theorem firstBits_toNat (d : Nat) (x : BitVec w) : (firstBits d x).toNat = x.toNat / 2 ^ (w - d) * 2 ^ (w - d) := by
  have below : x.toNat / 2 ^ (w - d) * 2 ^ (w - d) < 2 ^ w :=
    lt_of_le_of_lt (Nat.div_mul_le_self _ _) x.isLt
  rw [firstBits, BitVec.toNat_shiftLeft, BitVec.toNat_ushiftRight, Nat.shiftRight_eq_div_pow,
    Nat.shiftLeft_eq, Nat.mod_eq_of_lt below]

/-- Of two words that agree on `d` bits the one with the next bit set is the greater one. -/
theorem lt_of_bit (small : d < w) (same : firstBits d x = firstBits d y)
    (clear : x.getMsbD d = false) (set : y.getMsbD d = true) : x < y := by
  have step : x.toNat / 2 ^ (w - (d + 1)) < y.toNat / 2 ^ (w - (d + 1)) := by
    have quotient : ∀ z : BitVec w, z.toNat / 2 ^ (w - (d + 1)) =
        2 * (z.toNat / 2 ^ (w - d)) + (z.getMsbD d).toNat := by
      intro z
      have power : 2 ^ (w - d) = 2 ^ (w - (d + 1)) * 2 := by
        rw [← Nat.pow_succ]
        congr 1
        omega
      have bit : (z.getMsbD d).toNat = z.toNat / 2 ^ (w - (d + 1)) % 2 := by
        rw [BitVec.getMsbD, BitVec.getLsbD]
        simp only [small, decide_true, Bool.true_and]
        rw [show w - 1 - d = w - (d + 1) by omega, Nat.testBit_eq_decide_div_mod_eq]
        rcases Nat.mod_two_eq_zero_or_one (z.toNat / 2 ^ (w - (d + 1))) with even | odd
        · simp [even]
        · simp [odd]
      rw [power, ← Nat.div_div_eq_div_mul, bit]
      omega
    have agree : x.toNat / 2 ^ (w - d) = y.toNat / 2 ^ (w - d) := by
      have values := congrArg BitVec.toNat same
      rw [firstBits_toNat, firstBits_toNat] at values
      exact Nat.eq_of_mul_eq_mul_right (Nat.two_pow_pos _) values
    rw [quotient x, quotient y, agree, clear, set]
    simp
  refine BitVec.lt_def.mpr ?_
  by_contra notLess
  exact absurd (Nat.div_le_div_right (not_lt.mp notLess)) (not_le.mpr step)

/-- Below a common prefix the bits that decide follow the order. -/
theorem bit_mono (small : d < w) (same : firstBits d x = firstBits d y) (less : x < y)
    (set : x.getMsbD d = true) : y.getMsbD d = true := by
  by_contra clear
  have greater := lt_of_bit small same.symm (by simpa using clear) set
  exact absurd (BitVec.lt_trans less greater) (BitVec.lt_irrefl x)

end Marigold.Lib.Bits
