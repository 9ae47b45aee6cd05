import Mathlib.Data.List.Sort
import Marigold.Core.Tx
import Marigold.NotePool.Types

/-!
# Note pool hashing

`consensus/core/src/notepool/hashing.rs`. Each hash is its domain's hash function applied to an
explicit preimage, so that what a signature or a leaf commits to can be read off the preimage.
-/

namespace Marigold.NotePool

open Lib

def newNoteBytes (note : NewNote) : Bytes := [note.d.toByte] ++ note.pk.asBytes

def leafPreimage (entry : PoolEntry) : Bytes :=
  match entry.lock with
  | none => newNoteBytes entry.note
  | some lock => newNoteBytes entry.note ++ lock.refundPk.asBytes ++ u64LE lock.untilDaa

def serialPreimage (creatingTxId : TransactionId) (index : UInt32) : Bytes :=
  creatingTxId.asBytes ++ u32LE index

variable (output : TransactionOutput)

/-- What `transparent_outputs_hash` feeds the hasher for one output. -/
def outputBytes : Bytes :=
  u64LE output.value ++ u16LE output.scriptPublicKey.version ++ output.scriptPublicKey.script

variable (outputs : List TransactionOutput)

def transparentOutputsPreimage : Bytes :=
  outputs.flatMap outputBytes

def producedLockBytes (l : ProducedLock) : Bytes :=
  u32LE l.index ++ l.lock.refundPk.asBytes ++ u64LE l.lock.untilDaa

/-- The locks part of a signing preimage: nothing at all when there are no locks. -/
def locksBytes (locks : List ProducedLock) : Bytes :=
  if locks.isEmpty then []
  else u32LE (UInt32.ofNat locks.length) ++ locks.flatMap producedLockBytes

/-- Ascending byte-lexicographic order. -/
def sortSerials (serials : List Hash) : List Hash := serials.insertionSort (· ≤ ·)

def signingPreimage (opType : UInt8) (groupSerials : List Hash) (produced : List NewNote)
    (locks : List ProducedLock) (outputsHash : Hash) (anchorDaaScore : UInt64) : Bytes :=
  [poolProtocolVersion, opType] ++ (sortSerials groupSerials).flatMap Hash.asBytes ++
    produced.flatMap newNoteBytes ++ locksBytes locks ++ outputsHash.asBytes ++
    u64LE anchorDaaScore

section Hashes

variable (H : Hashers)

def leafHashEntry (entry : PoolEntry) : Hash := H.notePoolLeaf (leafPreimage entry)

/-- A note's serial, from the transaction that creates it and its place among that op's notes. -/
def serialHash (creatingTxId : TransactionId) (index : UInt32) : Hash :=
  H.notePoolSerial (serialPreimage creatingTxId index)

def transparentOutputsHash (outputs : List TransactionOutput) : Hash :=
  H.notePoolOutputs (transparentOutputsPreimage outputs)

def signingHashWithLocks (opType : UInt8) (groupSerials : List Hash) (produced : List NewNote)
    (locks : List ProducedLock) (outputsHash : Hash) (anchorDaaScore : UInt64) : Hash :=
  H.notePoolSigning (signingPreimage opType groupSerials produced locks outputsHash anchorDaaScore)

end Hashes

/-! ## What the outputs preimage determines

The scripts are neither counted nor length-prefixed, so the end of a script and the start of the
next output look alike. -/

/-- The part of an output that the preimage is built from. -/
def hashedFields : UInt64 × ScriptPublicKey :=
  (output.value, output.scriptPublicKey)

@[simp] theorem outputBytes_length : (outputBytes output).length = 10 + output.scriptPublicKey.script.length := by
  simp only [outputBytes, List.length_append, u64LE_length, u16LE_length]

private theorem outputBytes_fields {a b : TransactionOutput} (same : outputBytes a = outputBytes b) :
    hashedFields a = hashedFields b := by
  simp only [outputBytes, List.append_assoc] at same
  obtain ⟨value, rest⟩ := List.append_inj same (by simp)
  obtain ⟨version, script⟩ := List.append_inj rest (by simp)
  have spk : a.scriptPublicKey = b.scriptPublicKey := by
    cases ha : a.scriptPublicKey
    cases hb : b.scriptPublicKey
    simp only [ha, hb] at version script
    rw [u16LE_injective version, script]
  rw [hashedFields, hashedFields, u64LE_injective value, spk]

/-- Ten bytes or more are always the encoding of some output. -/
def readOutput (bs : Bytes) : TransactionOutput :=
  ⟨readU64LE (bs.take 8), ⟨readU16LE ((bs.drop 8).take 2), bs.drop 10⟩, none⟩

private theorem outputBytes_readOutput {bs : Bytes} (long : 10 ≤ bs.length) : outputBytes (readOutput bs) = bs := by
  have value : u64LE (readU64LE (bs.take 8)) = bs.take 8 :=
    u64LE_readU64LE (by rw [List.length_take]; omega)
  have version : u16LE (readU16LE ((bs.drop 8).take 2)) = (bs.drop 8).take 2 :=
    u16LE_readU16LE (by rw [List.length_take, List.length_drop]; omega)
  simp only [outputBytes, readOutput]
  rw [value, version, ← List.take_add, List.take_append_drop]

private theorem transparentOutputsPreimage_length :
    10 * outputs.length ≤ (transparentOutputsPreimage outputs).length := by
  induction outputs with
  | nil => simp [transparentOutputsPreimage]
  | cons o outputs ih =>
    simp only [transparentOutputsPreimage, List.flatMap_cons, List.length_append,
      outputBytes_length, List.length_cons] at ih ⊢
    omega

/-- Any output list of two or more reads as one output, and one output with a script of ten bytes
or more reads as two. -/
private theorem transparentOutputsPreimage_other_length (large : 20 ≤ (transparentOutputsPreimage outputs).length) :
    ∃ others, transparentOutputsPreimage outputs = transparentOutputsPreimage others ∧
      outputs.length ≠ others.length := by
  generalize hbs : transparentOutputsPreimage outputs = bs at large ⊢
  by_cases single : outputs.length = 1
  · refine ⟨[readOutput (bs.take 10), readOutput (bs.drop 10)], ?_, by simp [single]⟩
    have front : 10 ≤ (bs.take 10).length := by rw [List.length_take]; omega
    have back : 10 ≤ (bs.drop 10).length := by rw [List.length_drop]; omega
    change bs = outputBytes _ ++ (outputBytes _ ++ [])
    rw [outputBytes_readOutput front, outputBytes_readOutput back, List.append_nil, List.take_append_drop]
  · refine ⟨[readOutput bs], ?_, by simpa using single⟩
    change bs = outputBytes _ ++ []
    rw [outputBytes_readOutput (by omega), List.append_nil]

/-- The preimage fixes the outputs exactly when there is none, or one with a script shorter than
ten bytes: every other list of outputs shares its preimage with a list of another length. -/
theorem transparentOutputsPreimage_determines_iff (xs : List TransactionOutput) :
    (∀ ys, transparentOutputsPreimage xs = transparentOutputsPreimage ys →
        xs.map hashedFields = ys.map hashedFields) ↔
      xs = [] ∨ ∃ o, xs = [o] ∧ o.scriptPublicKey.script.length < 10 := by
  constructor
  · intro determines
    by_contra other
    rw [not_or, not_exists] at other
    obtain ⟨nonempty, long⟩ := other
    have large : 20 ≤ (transparentOutputsPreimage xs).length := by
      match xs, nonempty, long with
      | [o], _, long =>
        have script : 10 ≤ o.scriptPublicKey.script.length := by simpa using long o
        simp only [transparentOutputsPreimage, List.flatMap_singleton, outputBytes_length]
        omega
      | a :: b :: rest, _, _ =>
        have least := transparentOutputsPreimage_length (a :: b :: rest)
        simp only [List.length_cons] at least
        omega
    obtain ⟨ys, same, lengths⟩ := transparentOutputsPreimage_other_length xs large
    exact lengths (by simpa using congrArg List.length (determines ys same))
  · rintro (rfl | ⟨o, rfl, short⟩) ys same
    · have least := transparentOutputsPreimage_length ys
      rw [← same] at least
      simp only [transparentOutputsPreimage, List.flatMap_nil, List.length_nil] at least
      have empty : ys = [] := List.length_eq_zero_iff.mp (by omega)
      rw [empty]
    · have least := transparentOutputsPreimage_length ys
      rw [← same] at least
      simp only [transparentOutputsPreimage, List.flatMap_singleton, outputBytes_length] at least
      match ys, same, least with
      | [], same, _ =>
        have total := congrArg List.length same
        simp [transparentOutputsPreimage] at total
      | [y], same, _ =>
        have fields := outputBytes_fields (by simpa [transparentOutputsPreimage] using same)
        simp [fields]
      | a :: b :: rest, _, least =>
        simp only [List.length_cons] at least
        omega

/-- The pay-to-public-key script of the key whose 32 bytes are all `k`. -/
def payToKey (k : UInt8) : Bytes := [0x20] ++ List.replicate 32 k ++ [0xac]

/-- A payment with change, as its signer meant it. -/
def paymentWithChange : List TransactionOutput :=
  [⟨500000, ⟨0, payToKey 7⟩, none⟩, ⟨400000, ⟨0, payToKey 9⟩, none⟩]

/-- One output whose script swallows the change output, so that the change becomes a fee. -/
def changeSwallowed : List TransactionOutput :=
  [⟨500000, ⟨0, payToKey 7 ++ outputBytes ⟨400000, ⟨0, payToKey 9⟩, none⟩⟩, none⟩]

theorem transparentOutputsPreimage_ambiguous :
    transparentOutputsPreimage paymentWithChange = transparentOutputsPreimage changeSwallowed ∧
      paymentWithChange.map hashedFields ≠ changeSwallowed.map hashedFields := by
  decide

end Marigold.NotePool
