import Marigold.Consensus.Coinbase

/-!
# The coinbase payload

A payload is a blue score, a subsidy and a script version of fixed width, one byte for the length of the script, the
script, and the extra data up to the end. Every payload that is long enough has this layout, and the layout determines
what is read from it; the laws of the codec follow from these two facts.
-/

namespace Marigold.Consensus

open Lib

namespace CoinbaseManager

variable (M : CoinbaseManager)

/-- Blue score and subsidy are kept. -/
def modifyCoinbasePayload (payload : Bytes) (minerData : MinerData) : Except CoinbaseError Bytes :=
  let script := minerData.scriptPublicKey.script
  if script.length > M.coinbasePayloadScriptPublicKeyMaxLen.toNat then
    .error (.payloadScriptPublicKeyLenAboveMax script.length M.coinbasePayloadScriptPublicKeyMaxLen)
  else
    .ok (payload.take (8 + 8) ++ (u16LE minerData.scriptPublicKey.version ++ [UInt8.ofNat script.length] ++ script ++
      minerData.extraData))

/-- Script and payload are within the limits. -/
structure WithinLimits (data : CoinbaseData) : Prop where
  script : data.minerData.scriptPublicKey.script.length ≤ M.coinbasePayloadScriptPublicKeyMaxLen.toNat
  payload : minPayloadLength + data.minerData.scriptPublicKey.script.length + data.minerData.extraData.length ≤
    M.maxCoinbasePayloadLen

/-! ## The layout -/

/-- The fixed part and what follows it. -/
def payloadLayout (blueScore subsidy : UInt64) (version : UInt16) (scriptLen : UInt8) (rest : Bytes) : Bytes :=
  u64LE blueScore ++ (u64LE subsidy ++ (u16LE version ++ scriptLen :: rest))

variable {M} {blueScore subsidy : UInt64} {version : UInt16} {scriptLen : UInt8} {rest payload : Bytes}
  {data : CoinbaseData}

theorem payloadLayout_length :
    (payloadLayout blueScore subsidy version scriptLen rest).length = minPayloadLength + rest.length := by
  simp only [payloadLayout, List.length_append, List.length_cons, u64LE_length, u16LE_length, minPayloadLength]
  omega

theorem exists_payloadLayout (long : minPayloadLength ≤ payload.length) :
    ∃ blueScore subsidy version scriptLen rest, payload = payloadLayout blueScore subsidy version scriptLen rest := by
  rw [minPayloadLength] at long
  obtain ⟨scriptLen, tail⟩ : ∃ scriptLen, payload.drop 18 = scriptLen :: payload.drop 19 :=
    ⟨payload.get ⟨18, by omega⟩, List.drop_eq_getElem_cons (by omega)⟩
  refine ⟨readU64LE (payload.take 8), readU64LE ((payload.drop 8).take 8), readU16LE ((payload.drop 16).take 2),
    scriptLen, payload.drop 19, ?_⟩
  rw [payloadLayout, u64LE_readU64LE (by simp; omega), u64LE_readU64LE (by simp; omega),
    u16LE_readU16LE (by simp; omega), ← tail]
  have second := List.take_append_drop 2 (payload.drop 16)
  have first := List.take_append_drop 8 (payload.drop 8)
  rw [List.drop_drop] at first second
  rw [second, first, List.take_append_drop]

theorem readU64LE_u64LE (v : UInt64) : readU64LE (u64LE v) = v :=
  u64LE_injective (u64LE_readU64LE (u64LE_length v))

theorem readU16LE_u16LE (v : UInt16) : readU16LE (u16LE v) = v :=
  u16LE_injective (u16LE_readU16LE (u16LE_length v))

theorem deserializeCoinbasePayload_layout :
    M.deserializeCoinbasePayload (payloadLayout blueScore subsidy version scriptLen rest) = .ok data ↔
      minPayloadLength + rest.length ≤ M.maxCoinbasePayloadLen ∧
      scriptLen ≤ M.coinbasePayloadScriptPublicKeyMaxLen ∧ scriptLen.toNat ≤ rest.length ∧
      data = ⟨blueScore, subsidy, ⟨⟨version, rest.take scriptLen.toNat⟩, rest.drop scriptLen.toNat⟩⟩ := by
  have from8 : (payloadLayout blueScore subsidy version scriptLen rest).drop 8 =
      u64LE subsidy ++ (u16LE version ++ scriptLen :: rest) := List.drop_left' (u64LE_length _)
  have from16 : (payloadLayout blueScore subsidy version scriptLen rest).drop 16 =
      u16LE version ++ scriptLen :: rest := by
    rw [← List.drop_drop (i := 8) (j := 8), from8, List.drop_left' (u64LE_length _)]
  have from18 : (payloadLayout blueScore subsidy version scriptLen rest).drop 18 = scriptLen :: rest := by
    rw [← List.drop_drop (i := 2) (j := 16), from16, List.drop_left' (u16LE_length _)]
  have from19 : (payloadLayout blueScore subsidy version scriptLen rest).drop minPayloadLength = rest := by
    rw [minPayloadLength, ← List.drop_drop (i := 1) (j := 18), from18]
    rfl
  have to8 : (payloadLayout blueScore subsidy version scriptLen rest).take 8 = u64LE blueScore :=
    List.take_left' (u64LE_length _)
  rw [deserializeCoinbasePayload, payloadLayout_length, from8, from16, from18, from19, to8,
    List.take_left' (u64LE_length _), List.take_left' (u16LE_length _), readU64LE_u64LE, readU64LE_u64LE,
    readU16LE_u16LE, if_neg (by omega), List.headD_cons]
  split
  next long => simp [not_le.mpr long]
  next fits =>
    dsimp only
    split
    next above => simp [UInt8.not_le.mpr above]
    next within =>
      split
      next short => simp [not_le.mpr short]
      next whole =>
        rw [Except.ok.injEq]
        constructor
        · intro same
          exact ⟨not_lt.mp fits, UInt8.not_lt.mp within, not_lt.mp whole, same.symm⟩
        · rintro ⟨-, -, -, same⟩
          exact same.symm

/-! ## The laws -/

theorem serializeCoinbasePayload_eq (within : data.minerData.scriptPublicKey.script.length ≤
    M.coinbasePayloadScriptPublicKeyMaxLen.toNat) :
    M.serializeCoinbasePayload data = .ok (payloadLayout data.blueScore data.subsidy
      data.minerData.scriptPublicKey.version (UInt8.ofNat data.minerData.scriptPublicKey.script.length)
      (data.minerData.scriptPublicKey.script ++ data.minerData.extraData)) := by
  rw [serializeCoinbasePayload, if_neg (not_lt.mpr within), payloadLayout]
  simp

theorem deserialize_serialize (within : M.WithinLimits data) :
    ∃ payload, M.serializeCoinbasePayload data = .ok payload ∧ M.deserializeCoinbasePayload payload = .ok data := by
  refine ⟨_, serializeCoinbasePayload_eq within.script, deserializeCoinbasePayload_layout.mpr ?_⟩
  have narrow :=
    UInt8.toNat_ofNat_of_lt' (Nat.lt_of_le_of_lt within.script M.coinbasePayloadScriptPublicKeyMaxLen.toNat_lt)
  rw [UInt8.le_iff_toNat_le, narrow, List.length_append, List.take_left, List.drop_left, ← Nat.add_assoc]
  exact ⟨within.payload, within.script, Nat.le_add_right _ _, rfl⟩

theorem serialize_deserialize (read : M.deserializeCoinbasePayload payload = .ok data) :
    M.serializeCoinbasePayload data = .ok payload := by
  have long : minPayloadLength ≤ payload.length := by
    by_contra short
    rw [deserializeCoinbasePayload, if_pos (not_le.mp short)] at read
    cases read
  obtain ⟨blueScore, subsidy, version, scriptLen, rest, rfl⟩ := exists_payloadLayout long
  obtain ⟨-, within, whole, rfl⟩ := deserializeCoinbasePayload_layout.mp read
  have length := List.length_take_of_le whole
  rw [serializeCoinbasePayload_eq (length.symm ▸ UInt8.le_iff_toNat_le.mp within), length, UInt8.ofNat_toNat,
    List.take_append_drop]

theorem modify_serialize {minerData : MinerData} (written : M.serializeCoinbasePayload data = .ok payload) :
    M.modifyCoinbasePayload payload minerData = M.serializeCoinbasePayload { data with minerData } := by
  have kept : payload.take (8 + 8) = u64LE data.blueScore ++ u64LE data.subsidy := by
    rw [serializeCoinbasePayload] at written
    split at written
    · cases written
    · cases written
      simp only [List.append_assoc]
      rw [← List.append_assoc, List.take_left' (by simp)]
  rw [modifyCoinbasePayload, serializeCoinbasePayload, kept]
  simp only [List.append_assoc]

/-- Within the limits what is written is read back, and changing the miner data in a payload is the same as writing the
changed data; and whatever is read was written so. -/
theorem coinbasePayload_laws (M : CoinbaseManager) :
    (∀ data, M.WithinLimits data →
      ∃ payload, M.serializeCoinbasePayload data = .ok payload ∧ M.deserializeCoinbasePayload payload = .ok data) ∧
    (∀ data payload minerData, M.WithinLimits data → M.serializeCoinbasePayload data = .ok payload →
      M.modifyCoinbasePayload payload minerData = M.serializeCoinbasePayload { data with minerData } ∧
      (M.WithinLimits { data with minerData } → ∃ modified, M.modifyCoinbasePayload payload minerData = .ok modified ∧
        M.deserializeCoinbasePayload modified = .ok { data with minerData })) ∧
    ∀ payload data, M.deserializeCoinbasePayload payload = .ok data → M.serializeCoinbasePayload data = .ok payload := by
  refine ⟨fun data within => deserialize_serialize within, fun data payload minerData _ written => ?_,
    fun payload data read => serialize_deserialize read⟩
  have same : M.modifyCoinbasePayload payload minerData = _ := modify_serialize written
  refine ⟨same, fun within => ?_⟩
  rw [same]
  exact deserialize_serialize within

end CoinbaseManager

end Marigold.Consensus
