import Mathlib.Data.List.Basic
import Mathlib.Tactic.Ring

/-!
# Byte strings

Fixed-width integer encodings and concatenations of fixed-width records. Every reader here is a
left and right inverse of its writer on byte strings of the right length.
-/

namespace Marigold.Lib

abbrev Bytes := List UInt8

/-- The `width` low bytes of `n`, least significant first. -/
def leBytes : Nat → Nat → Bytes
  | 0, _ => []
  | width + 1, n => UInt8.ofNat n :: leBytes width (n / 256)

def readLE : Bytes → Nat
  | [] => 0
  | b :: bs => b.toNat + 256 * readLE bs

variable (width n : Nat)

@[simp] theorem leBytes_length : (leBytes width n).length = width := by
  induction width generalizing n with
  | zero => rfl
  | succ width ih => simp [leBytes, ih]

variable (bs : Bytes)

theorem readLE_lt : readLE bs < 256 ^ bs.length := by
  induction bs with
  | nil => simp [readLE]
  | cons b bs ih =>
    have low : b.toNat < 256 := b.toNat_lt
    simp only [readLE, List.length_cons, Nat.pow_succ]
    omega

theorem readLE_leBytes : readLE (leBytes width n) = n % 256 ^ width := by
  induction width generalizing n with
  | zero => simp [leBytes, readLE, Nat.mod_one]
  | succ width ih =>
    have low : (UInt8.ofNat n).toNat = n % 256 := by simp
    rw [leBytes, readLE, ih, low, Nat.pow_succ, Nat.mul_comm (256 ^ width), Nat.mod_mul]

theorem leBytes_readLE : leBytes bs.length (readLE bs) = bs := by
  induction bs with
  | nil => rfl
  | cons b bs ih =>
    have low : b.toNat < 256 := b.toNat_lt
    have head : UInt8.ofNat (b.toNat + 256 * readLE bs) = b := by
      apply UInt8.toNat_inj.mp
      simp only [UInt8.toNat_ofNat']
      omega
    have tail : (b.toNat + 256 * readLE bs) / 256 = readLE bs := by omega
    rw [List.length_cons, readLE, leBytes, head, tail, ih]

theorem leBytes_inj {width a b : Nat} (ha : a < 256 ^ width) (hb : b < 256 ^ width)
    (same : leBytes width a = leBytes width b) : a = b := by
  have read := congrArg readLE same
  rwa [readLE_leBytes, readLE_leBytes, Nat.mod_eq_of_lt ha, Nat.mod_eq_of_lt hb] at read

/-- The `width` low bytes of `n`, most significant first. -/
def beBytes : Bytes := (leBytes width n).reverse

def readBE : Nat := readLE bs.reverse

@[simp] theorem beBytes_length : (beBytes width n).length = width := by simp [beBytes]

theorem readBE_lt : readBE bs < 256 ^ bs.length := by simpa [readBE] using readLE_lt bs.reverse

theorem readBE_beBytes : readBE (beBytes width n) = n % 256 ^ width := by
  simp [readBE, beBytes, readLE_leBytes]

theorem beBytes_readBE : beBytes bs.length (readBE bs) = bs := by
  have read := leBytes_readLE bs.reverse
  rw [List.length_reverse] at read
  rw [beBytes, readBE, read, List.reverse_reverse]

/-! ## Sequences of fixed-width records -/

/-- The first `count` pieces of `width` bytes. -/
def pieces (width : Nat) : Nat → Bytes → List Bytes
  | 0, _ => []
  | count + 1, bs => bs.take width :: pieces width count (bs.drop width)

@[simp] theorem pieces_length (width count : Nat) (bs : Bytes) : (pieces width count bs).length = count := by
  induction count generalizing bs with
  | zero => rfl
  | succ count ih => simp [pieces, ih]

theorem pieces_flatten (width count : Nat) (bs : Bytes) :
    (pieces width count bs).flatten = bs.take (count * width) := by
  induction count generalizing bs with
  | zero => simp [pieces]
  | succ count ih =>
    rw [pieces, List.flatten_cons, ih, Nat.succ_mul, Nat.add_comm, List.take_add]

theorem length_of_mem_pieces {width count : Nat} {bs piece : Bytes}
    (long : count * width ≤ bs.length) (member : piece ∈ pieces width count bs) : piece.length = width := by
  induction count generalizing bs with
  | zero => simp [pieces] at member
  | succ count ih =>
    rw [Nat.succ_mul] at long
    rcases List.mem_cons.mp member with rfl | later
    · rw [List.length_take]
      omega
    · exact ih (by rw [List.length_drop]; omega) later

section Records

variable {α : Type*} {width : Nat} {encode : α → Bytes}

theorem flatMap_length (fixed : ∀ a, (encode a).length = width) (xs : List α) :
    (xs.flatMap encode).length = xs.length * width := by
  induction xs with
  | nil => simp
  | cons a xs ih => simp [fixed, ih, Nat.succ_mul, Nat.add_comm]

/-- Reading back a concatenation of records cuts it at the record boundaries. -/
theorem pieces_flatMap (fixed : ∀ a, (encode a).length = width) (xs : List α) (rest : Bytes) :
    pieces width xs.length (xs.flatMap encode ++ rest) = xs.map encode := by
  induction xs with
  | nil => rfl
  | cons a xs ih =>
    rw [List.length_cons, pieces, List.flatMap_cons, List.append_assoc,
      List.take_left' (fixed a), List.drop_left' (fixed a), ih, List.map_cons]

/-- A byte string cut into records by a reader of single records. -/
theorem flatMap_map_pieces {decode : Bytes → α} {count : Nat} {bs : Bytes}
    (read : ∀ piece ∈ pieces width count bs, encode (decode piece) = piece) :
    ((pieces width count bs).map decode).flatMap encode = bs.take (count * width) := by
  rw [← pieces_flatten, List.flatMap_map, ← List.flatMap_id]
  exact List.flatMap_congr read

end Records

end Marigold.Lib
