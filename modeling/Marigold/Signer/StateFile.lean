import Marigold.Core.Hash
import Marigold.Lib.Text

/-!
# The signer's state file

`read_state` and `write_state` of `trustee-signer/src/lib.rs`: one line with the last signed score
and block. A write empties the file before it fills it, and its failure is only logged; a read that
fails, for whatever reason, looks the same as no file.
-/

namespace Marigold.Signer

open Lib

structure LastSigned where
  score : UInt64
  block : Hash
  deriving DecidableEq, Repr

/-- `LastSigned::default`. -/
def LastSigned.default : LastSigned := ⟨0, Hash.zero⟩

/-- `Hash::from_str`, with what `faster_hex` promises of it. -/
structure HashDecoder where
  decode : Text → Option Hash
  decode_encode : ∀ h : Hash, decode (hexEncode h.asBytes) = some h

/-- Exactly 64 digits. -/
def HashDecoder.strict : HashDecoder where
  decode text := if text.length = 64 then (hexDecode text).map Hash.fromBytes else none
  decode_encode h := by
    have width : (hexEncode h.asBytes).length = 64 := by simp [hexEncode, List.length_flatMap]
    simp [width, Hash.fromBytes_asBytes]

/-- The text of the file. -/
def LastSigned.text (state : LastSigned) : Text :=
  showU64 state.score ++ ' ' :: hexEncode state.block.asBytes

/-- What a read of the file gives. -/
inductive ReadOutcome where
  | content
  | failed
  deriving DecidableEq, Repr

/-- What becomes of a write. -/
inductive WriteOutcome where
  | written
  | notOpened
  /-- The file was emptied, and only so many characters were written. -/
  | stopped (length : Nat)
  deriving DecidableEq, Repr

section File

variable (D : HashDecoder)

def parseState (content : Text) : Option LastSigned := do
  let (score, block) ← splitOnce ' ' (trim content)
  return ⟨← parseU64 score, ← D.decode block⟩

/-- The file is `none` while it does not exist. -/
def readState (file : Option Text) : ReadOutcome → Option LastSigned
  | .content => file.bind (parseState D)
  | .failed => none

end File

/-- The file after `write_state`. -/
def writeState (file : Option Text) (state : LastSigned) : WriteOutcome → Option Text
  | .written => some state.text
  | .notOpened => file
  | .stopped length => some (state.text.take length)

private theorem isWhite_hexDigits : ∀ c ∈ hexDigits, isWhite c = false := by
  simp [hexDigits, isWhite]

private theorem isWhite_of_isDigit {c : Char} (digit : c.isDigit = true) : isWhite c = false := by
  have low : 48 ≤ c.toNat := by
    simp only [Char.isDigit, Bool.and_eq_true, decide_eq_true_eq] at digit
    exact digit.1
  have high : c.toNat ≤ 57 := by
    simp only [Char.isDigit, Bool.and_eq_true, decide_eq_true_eq] at digit
    exact digit.2
  simp only [isWhite, Bool.or_eq_false_iff, Bool.and_eq_false_iff, decide_eq_false_iff_not,
    List.mem_cons, List.not_mem_nil, or_false]
  omega

theorem trim_text (state : LastSigned) : trim state.text = state.text := by
  apply trim_eq_self
  · intro c first
    cases shown : showU64 state.score with
    | nil => exact absurd shown Nat.toDigits_ne_nil
    | cons d rest =>
      obtain rfl : d = c := by simpa [LastSigned.text, shown] using first
      exact isWhite_of_isDigit (isDigit_of_mem_showU64 (v := state.score) (by simp [shown]))
  · intro c last
    have spelled : hexEncode state.block.asBytes ≠ [] := by
      intro empty
      have width := state.block.asBytes_length
      cases bytes : state.block.asBytes with
      | nil => simp [bytes] at width
      | cons b bs => simp [bytes, hexEncode] at empty
    rw [LastSigned.text, List.getLast?_append, List.getLast?_cons_of_ne_nil spelled] at last
    have member : c ∈ hexEncode state.block.asBytes := by
      cases found : (hexEncode state.block.asBytes).getLast? with
      | none => exact absurd (List.getLast?_eq_none_iff.mp found) spelled
      | some d =>
        obtain rfl : d = c := by simpa [found] using last
        exact List.mem_of_getLast? found
    exact isWhite_hexDigits _ (mem_hexDigits_of_mem_hexEncode member)

@[simp] theorem parseState_text (D : HashDecoder) (state : LastSigned) : parseState D state.text = some state := by
  have noBlank : ' ' ∉ showU64 state.score := fun member =>
    absurd (isDigit_of_mem_showU64 member) (by decide)
  rw [parseState, trim_text, LastSigned.text, splitOnce_append _ noBlank]
  simp [D.decode_encode]

example : parseState .strict "300 ".toList = none := by decide

end Marigold.Signer
