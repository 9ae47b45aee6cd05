import Marigold.Core.Outcome
import Marigold.Core.Tx
import Marigold.Lib.Map

/-!
# Coinbase payloads and rewards

`processes/coinbase.rs`: the payload every coinbase transaction carries, and the transaction a chain
block has to pay its mergeset with. The subsidy schedule is a parameter.
-/

namespace Marigold.Consensus

open Lib

structure MinerData where
  scriptPublicKey : ScriptPublicKey
  extraData : Bytes
  deriving DecidableEq, Repr

structure CoinbaseData where
  blueScore : UInt64
  subsidy : UInt64
  minerData : MinerData
  deriving DecidableEq, Repr

structure BlockRewardData where
  subsidy : UInt64
  totalFees : UInt64
  scriptPublicKey : ScriptPublicKey
  deriving DecidableEq, Repr

inductive CoinbaseError where
  | payloadLenBelowMin (len min : Nat)
  | payloadLenAboveMax (len max : Nat)
  | payloadScriptPublicKeyLenAboveMax (len : Nat) (max : UInt8)
  | payloadCantContainScriptPublicKey (len needed : Nat)
  deriving DecidableEq, Repr

structure GhostdagData where
  blueScore : UInt64
  selectedParent : Hash
  /-- The selected parent first. -/
  mergesetBlues : List Hash
  mergesetReds : List Hash

structure CoinbaseManager where
  coinbasePayloadScriptPublicKeyMaxLen : UInt8
  maxCoinbasePayloadLen : Nat
  calcBlockSubsidy : UInt64 → UInt64

/-- Blue score, subsidy, script version, script length. -/
def minPayloadLength : Nat := 8 + 8 + 2 + 1

namespace CoinbaseManager

variable (M : CoinbaseManager)

def serializeCoinbasePayload (data : CoinbaseData) : Except CoinbaseError Bytes :=
  let script := data.minerData.scriptPublicKey.script
  if script.length > M.coinbasePayloadScriptPublicKeyMaxLen.toNat then
    .error (.payloadScriptPublicKeyLenAboveMax script.length M.coinbasePayloadScriptPublicKeyMaxLen)
  else
    .ok (u64LE data.blueScore ++ u64LE data.subsidy ++
      u16LE data.minerData.scriptPublicKey.version ++ [UInt8.ofNat script.length] ++ script ++
      data.minerData.extraData)

def deserializeCoinbasePayload (payload : Bytes) : Except CoinbaseError CoinbaseData :=
  if payload.length < minPayloadLength then
    .error (.payloadLenBelowMin payload.length minPayloadLength)
  else if payload.length > M.maxCoinbasePayloadLen then
    .error (.payloadLenAboveMax payload.length M.maxCoinbasePayloadLen)
  else
    let scriptLen := (payload.drop 18).headD 0
    let remaining := payload.drop minPayloadLength
    if scriptLen > M.coinbasePayloadScriptPublicKeyMaxLen then
      .error (.payloadScriptPublicKeyLenAboveMax scriptLen.toNat M.coinbasePayloadScriptPublicKeyMaxLen)
    else if remaining.length < scriptLen.toNat then
      .error (.payloadCantContainScriptPublicKey payload.length (minPayloadLength + scriptLen.toNat))
    else
      .ok ⟨readU64LE (payload.take 8), readU64LE ((payload.drop 8).take 8),
        ⟨⟨readU16LE ((payload.drop 16).take 2), remaining.take scriptLen.toNat⟩, remaining.drop scriptLen.toNat⟩⟩

/-- One output for each blue block inside the DAA window that earned something. -/
def blueOutputs (rewards : Map Hash BlockRewardData) (nonDaa : List Hash) :
    List Hash → Outcome CoinbaseError (List TransactionOutput)
  | [] => .ok []
  | blue :: rest =>
    if blue ∈ nonDaa then blueOutputs rewards nonDaa rest
    else do
      let reward ← Outcome.expect (rewards.lookup blue)
      let earned ← Outcome.add reward.subsidy reward.totalFees
      let outputs ← blueOutputs rewards nonDaa rest
      return if earned > 0 then ⟨earned, reward.scriptPublicKey, none⟩ :: outputs else outputs

/-- Outside the DAA window a red block earns its fees only. -/
def redEarned (reward : BlockRewardData) (nonDaa : Bool) : Outcome CoinbaseError UInt64 :=
  if nonDaa then .ok reward.totalFees else Outcome.add reward.subsidy reward.totalFees

/-- What the red blocks earned goes to the merging block. -/
def redReward (rewards : Map Hash BlockRewardData) (nonDaa : List Hash) :
    UInt64 → List Hash → Outcome CoinbaseError UInt64
  | total, [] => .ok total
  | total, red :: rest => do
    let reward ← Outcome.expect (rewards.lookup red)
    let earned ← redEarned reward (red ∈ nonDaa)
    let total ← Outcome.add total earned
    redReward rewards nonDaa total rest

def expectedCoinbaseTransaction (daaScore : UInt64) (minerData : MinerData)
    (ghostdagData : GhostdagData) (mergesetRewards : Map Hash BlockRewardData)
    (mergesetNonDaa : List Hash) : Outcome CoinbaseError Transaction := do
  let blues ← blueOutputs mergesetRewards mergesetNonDaa ghostdagData.mergesetBlues
  let red ← redReward mergesetRewards mergesetNonDaa 0 ghostdagData.mergesetReds
  let reds : List TransactionOutput :=
    if red > 0 then [⟨red, minerData.scriptPublicKey, none⟩] else []
  let payload ← Outcome.ofExcept id
    (M.serializeCoinbasePayload ⟨ghostdagData.blueScore, M.calcBlockSubsidy daaScore, minerData⟩)
  return ⟨1, [], blues ++ reds, 0, SubnetworkId.coinbase, 0, payload, 0⟩

end CoinbaseManager

end Marigold.Consensus
