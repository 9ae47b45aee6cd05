import Marigold.Core.Tx
import Marigold.Lib.Delimited

/-!
# The parts of a transaction as bytes

What the hashers are fed for outpoints, scripts and outputs can be read back, as long as no script is longer
than its length field counts. An output of a version 0 transaction is hashed without its covenant.
-/

namespace Marigold

open Lib

namespace Transaction

theorem delimits_u16 : Delimits (fun _ => True) u16LE := .fixed u16LE_length u16LE_injective

theorem delimits_u32 : Delimits (fun _ => True) u32LE := .fixed u32LE_length u32LE_injective

theorem delimits_u64 : Delimits (fun _ => True) u64LE := .fixed u64LE_length u64LE_injective

theorem delimits_hash : Delimits (fun _ => True) Hash.asBytes := .fixed Hash.asBytes_length Hash.asBytes_injective

/-- The length of a `Vec` is a `usize`. -/
def Countable (bs : Bytes) : Prop := bs.length < 2 ^ 64

theorem delimits_varBytes : Delimits Countable writeVarBytes := Delimits.counted 8

theorem delimits_outpoint : Delimits (fun _ => True) writeOutpoint := by
  have parts : (fun o : TransactionOutpoint => (o.transactionId, o.index)).Injective := by
    rintro ⟨id, index⟩ ⟨id', index'⟩ same
    cases same
    rfl
  exact ((delimits_hash.pair delimits_u32).comap parts).mono fun _ _ => ⟨trivial, trivial⟩

/-- `hash_script_public_key`. -/
def writeScriptPublicKey (spk : ScriptPublicKey) : Bytes := u16LE spk.version ++ writeVarBytes spk.script

theorem delimits_scriptPublicKey : Delimits (fun spk => Countable spk.script) writeScriptPublicKey := by
  have parts : (fun spk : ScriptPublicKey => (spk.version, spk.script)).Injective := by
    rintro ⟨version, script⟩ ⟨version', script'⟩ same
    cases same
    rfl
  exact ((delimits_u16.pair delimits_varBytes).comap parts).mono fun _ countable => ⟨trivial, countable⟩

theorem delimits_binding : Delimits (fun _ => True)
    (fun covenant : CovenantBinding => u16LE covenant.authorizingInput ++ covenant.covenantId.asBytes) := by
  have parts : (fun covenant : CovenantBinding => (covenant.authorizingInput, covenant.covenantId)).Injective := by
    rintro ⟨input, id⟩ ⟨input', id'⟩ same
    cases same
    rfl
  exact ((delimits_u16.pair delimits_hash).comap parts).mono fun _ _ => ⟨trivial, trivial⟩

theorem delimits_covenant : Delimits (fun _ => True) writeCovenant := by
  intro a b x y _ _ same
  cases a with
  | none =>
    cases b with
    | none => exact ⟨rfl, (List.cons.inj same).2⟩
    | some covenant => exact absurd (List.cons.inj same).1 (by decide)
  | some covenant =>
    cases b with
    | none => exact absurd (List.cons.inj same).1 (by decide)
    | some other =>
      obtain ⟨bindings, rest⟩ := delimits_binding trivial trivial (List.cons.inj same).2
      exact ⟨congrArg some bindings, rest⟩

/-- What can be read back of an output: its script has a length, and a version 0 output no covenant. -/
structure OutputCoded (version : UInt16) (output : TransactionOutput) : Prop where
  script : Countable output.scriptPublicKey.script
  covenant : ¬version ≥ 1 → output.covenant = none

theorem delimits_output (version : UInt16) : Delimits (OutputCoded version) (writeOutput version) := by
  intro a b x y ha hb same
  have split : ∀ output rest, writeOutput version output ++ rest = u64LE output.value ++
      (writeScriptPublicKey output.scriptPublicKey ++
        ((if version ≥ 1 then writeCovenant output.covenant else []) ++ rest)) := by
    intro output rest
    simp only [writeOutput, writeScriptPublicKey, List.append_assoc]
  rw [split, split] at same
  obtain ⟨value, rest⟩ := delimits_u64 trivial trivial same
  obtain ⟨spk, rest⟩ := delimits_scriptPublicKey ha.script hb.script rest
  have covenants : a.covenant = b.covenant ∧ x = y := by
    split at rest
    · exact delimits_covenant trivial trivial rest
    next old => exact ⟨(ha.covenant old).trans (hb.covenant old).symm, rest⟩
  cases a
  cases b
  cases value
  cases spk
  cases covenants.1
  exact ⟨rfl, covenants.2⟩

theorem writeOutput_ne_nil (version : UInt16) (output : TransactionOutput) : writeOutput version output ≠ [] := by
  intro empty
  have length := congrArg List.length empty
  simp only [writeOutput, List.length_append, u64LE_length, List.length_nil] at length
  omega

end Transaction

end Marigold
