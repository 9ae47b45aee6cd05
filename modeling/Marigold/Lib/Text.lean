import Mathlib.Data.List.DropRight
import Mathlib.Data.List.GetD
import Marigold.Lib.Bytes

/-!
# Bytes and numbers as text

Text is a list of characters. Hex text spells each byte with two lower case digits, the high one
first; decoding takes both cases.
-/

namespace Marigold.Lib

abbrev Text := List Char

/-! ## Hex -/

def hexDigits : Text :=
  ['0', '1', '2', '3', '4', '5', '6', '7', '8', '9', 'a', 'b', 'c', 'd', 'e', 'f']

def hexDigit (n : Nat) : Char := hexDigits.getD (n % 16) '0'

/-- Of either case. -/
def hexValue (c : Char) : Option Nat := hexDigits.idxOf? c.toLower

def hexEncode (bs : Bytes) : Text :=
  bs.flatMap fun b => [hexDigit (b.toNat / 16), hexDigit b.toNat]

/-- `none` if a character is no digit, or the last one has no partner. -/
def hexDecode : Text → Option Bytes
  | [] => some []
  | [_] => none
  | high :: low :: rest => do
    let b := UInt8.ofNat (16 * (← hexValue high) + (← hexValue low))
    return b :: (← hexDecode rest)

theorem hexDigit_mem (n : Nat) : hexDigit n ∈ hexDigits := by
  have inside : n % 16 < hexDigits.length := Nat.mod_lt _ (by decide)
  rw [hexDigit, List.getD_eq_getElem _ _ inside]
  exact List.getElem_mem inside

@[simp] theorem hexValue_hexDigit (n : Nat) : hexValue (hexDigit n) = some (n % 16) := by
  have every : ∀ d < 16, hexValue (hexDigits.getD d '0') = some d := by decide
  exact every _ (Nat.mod_lt _ (by decide))

@[simp] theorem hexDecode_hexEncode (bs : Bytes) : hexDecode (hexEncode bs) = some bs := by
  induction bs with
  | nil => rfl
  | cons b bs ih =>
    have fits := b.toNat_lt
    have spelled : 16 * (b.toNat / 16 % 16) + b.toNat % 16 = b.toNat := by omega
    have byte : UInt8.ofNat (16 * (b.toNat / 16 % 16) + b.toNat % 16) = b := by
      rw [spelled, UInt8.ofNat_toNat]
    rw [hexEncode] at ih
    simp only [hexEncode, hexDecode, List.flatMap_cons, List.cons_append, List.nil_append,
      hexValue_hexDigit, Option.bind_eq_bind, Option.bind_some, byte, ih, pure]

theorem mem_hexDigits_of_mem_hexEncode {bs : Bytes} {c : Char} (member : c ∈ hexEncode bs) : c ∈ hexDigits := by
  simp only [hexEncode, List.mem_flatMap, List.mem_cons, List.not_mem_nil, or_false] at member
  obtain ⟨_, _, rfl | rfl⟩ := member
  · exact hexDigit_mem _
  · exact hexDigit_mem _

/-! ## Decimal numbers and words -/

/-- The white space of Unicode. -/
def isWhite (c : Char) : Bool :=
  c.toNat ∈ [0x20, 0x85, 0xA0, 0x1680, 0x2028, 0x2029, 0x202F, 0x205F, 0x3000] ||
    (0x9 ≤ c.toNat && c.toNat ≤ 0xD) || (0x2000 ≤ c.toNat && c.toNat ≤ 0x200A)

def trim (text : Text) : Text := (text.dropWhile isWhite).rdropWhile isWhite

/-- What stands before and after the first separator. -/
def splitOnce (separator : Char) (text : Text) : Option (Text × Text) :=
  match text.dropWhile (· ≠ separator) with
  | [] => none
  | _ :: after => some (text.takeWhile (· ≠ separator), after)

def showU64 (v : UInt64) : Text := Nat.toDigits 10 v.toNat

/-- A leading plus sign is allowed, an overflow is not. -/
def parseU64 (text : Text) : Option UInt64 :=
  let digits := match text with
    | '+' :: rest => rest
    | _ => text
  if digits.isEmpty || !digits.all Char.isDigit then none
  else if Nat.ofDigitChars 10 digits 0 < 2 ^ 64 then
    some (UInt64.ofNat (Nat.ofDigitChars 10 digits 0))
  else none

theorem isDigit_of_mem_showU64 {v : UInt64} {c : Char} (member : c ∈ showU64 v) : c.isDigit = true :=
  Nat.isDigit_of_mem_toDigits (by decide) (by decide) member

@[simp] theorem parseU64_showU64 (v : UInt64) : parseU64 (showU64 v) = some v := by
  have digits : ∀ c ∈ showU64 v, c.isDigit = true := fun _ => isDigit_of_mem_showU64
  have value : Nat.ofDigitChars 10 (showU64 v) 0 = v.toNat :=
    Nat.ofDigitChars_toDigits (by decide) (by decide)
  have someDigit : showU64 v ≠ [] := Nat.toDigits_ne_nil
  -- A digit is no plus sign, so the whole text is read.
  have unsigned : (match showU64 v with
      | '+' :: rest => rest
      | _ => showU64 v) = showU64 v := by
    split
    next rest shown =>
      have plus : '+' ∈ showU64 v := by simp [shown]
      exact absurd (digits _ plus) (by decide)
    · rfl
  have fits := v.toNat_lt
  simp [parseU64, unsigned, someDigit, List.all_eq_true.mpr digits, value, fits]

theorem splitOnce_append {separator : Char} {before : Text} (after : Text) (absent : separator ∉ before) :
    splitOnce separator (before ++ separator :: after) = some (before, after) := by
  have passes : ∀ c ∈ before, decide (c ≠ separator) = true := by
    intro c member
    simp only [decide_eq_true_eq]
    rintro rfl
    exact absent member
  rw [splitOnce, List.dropWhile_append_of_pos passes, List.takeWhile_append_of_pos passes]
  simp

/-- Nothing is cut from a text without white space at its ends. -/
theorem trim_eq_self {text : Text} (first : ∀ c ∈ text.head?, isWhite c = false)
    (last : ∀ c ∈ text.getLast?, isWhite c = false) : trim text = text := by
  have front : text.dropWhile isWhite = text := by
    cases text with
    | nil => rfl
    | cons c rest => simp [first c rfl]
  rw [trim, front, List.rdropWhile_eq_self_iff]
  intro nonempty
  simp [last _ (List.getLast?_eq_getLast_of_ne_nil nonempty)]

end Marigold.Lib
