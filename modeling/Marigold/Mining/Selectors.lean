import Marigold.Core.Tx
import Marigold.Lib.Quota
import Marigold.Lib.Table

/-!
# Selecting transactions for a block template

The selectors of `mempool/model/frontier`. A random draw is a number that picks one of the transactions that
are left. Transactions are handed out in batches; those of the last batch that turn out to be invalid are
rejected before the next one is asked for.
-/

namespace Marigold.Mining

open Lib

/-- The block limits, as configured: far below what 64 bits hold. -/
structure Policy where
  maxBlockMass : Nat
  lanesPerBlockLimit : Nat
  gasPerLaneLimit : Nat
  massFits : maxBlockMass * 4 < 2 ^ 64
  gasFits : gasPerLaneLimit < 2 ^ 64 - 1

def saturatingAdd (a b : Nat) : Nat := min (a + b) (2 ^ 64 - 1)

/-- A ready transaction with its normalized mass. -/
structure FeerateTransactionKey where
  fee : UInt64
  mass : Nat
  tx : Transaction
  deriving DecidableEq, Repr

/-! ## Lanes -/

/-- Per occupied lane, the transactions selected and their gas. -/
abbrev LaneSelectionState := Map SubnetworkId Usage

namespace LaneSelectionState

def trySelect (lanes : LaneSelectionState) (policy : Policy) (lane : SubnetworkId) (gas : Nat) :
    Option LaneSelectionState :=
  match lanes.lookup lane with
  | some usage =>
    if saturatingAdd usage.amount gas > policy.gasPerLaneLimit then none
    else some (lanes.insert lane ⟨usage.count + 1, usage.amount + gas⟩)
  | none =>
    if lanes.entries.length ≥ policy.lanesPerBlockLimit ∨ gas > policy.gasPerLaneLimit then none
    else some (lanes.insert lane ⟨1, gas⟩)

/-- Nothing if the lane is not occupied. -/
def reject (lanes : LaneSelectionState) (lane : SubnetworkId) (gas : Nat) : Option LaneSelectionState :=
  match lanes.lookup lane with
  | none => none
  | some usage =>
    if usage.count - 1 = 0 then some (lanes.erase lane)
    else some (lanes.insert lane ⟨usage.count - 1, usage.amount - gas⟩)

end LaneSelectionState

/-! ## All of them -/

/-- What is selected of a list that has no more mass than a block. -/
def takeAll (policy : Policy) : LaneSelectionState → List Transaction → List Transaction
  | _, [] => []
  | lanes, tx :: rest =>
    match lanes.trySelect policy tx.subnetworkId tx.gas.toNat with
    | some lanes => tx :: takeAll policy lanes rest
    | none => takeAll policy lanes rest

/-! ## In a given order -/

structure SequenceSelector where
  /-- In order of the priority index. -/
  inputSequence : List (Nat × FeerateTransactionKey)
  selectedVec : List (Nat × FeerateTransactionKey)
  /-- The selections of the last round that are not rejected, once one is. -/
  selectedMap : Option (Map TransactionId FeerateTransactionKey)
  totalSelectedMass : Nat
  lanes : LaneSelectionState
  policy : Policy

variable (idOf : Transaction → TransactionId)

def collectById (keys : List FeerateTransactionKey) : Map TransactionId FeerateTransactionKey :=
  Map.putMany ∅ (keys.map fun key => (idOf key.tx, key))

namespace SequenceSelector

def new (keys : List FeerateTransactionKey) (policy : Policy) : SequenceSelector :=
  ⟨keys.zipIdx.map fun entry => (entry.2, entry.1), [], none, 0, ∅, policy⟩

def visit (s : SequenceSelector) (entry : Nat × FeerateTransactionKey) : SequenceSelector :=
  if saturatingAdd s.totalSelectedMass entry.2.mass > s.policy.maxBlockMass then s
  else
    match s.lanes.trySelect s.policy entry.2.tx.subnetworkId entry.2.tx.gas.toNat with
    | none => s
    | some lanes => { s with lanes, totalSelectedMass := s.totalSelectedMass + entry.2.mass,
                             selectedVec := s.selectedVec ++ [entry] }

def selectTransactions (s : SequenceSelector) : SequenceSelector × List Transaction :=
  let input := s.inputSequence.filter fun entry => entry.1 ∉ s.selectedVec.map Prod.fst
  let fresh := { s with inputSequence := input, selectedVec := [], selectedMap := none }
  let selected := input.foldl visit fresh
  (selected, selected.selectedVec.map fun entry => entry.2.tx)

/-- Nothing if the transaction was not selected in the last round, or was rejected before. -/
def rejectSelection (idOf : Transaction → TransactionId) (s : SequenceSelector) (txId : TransactionId) :
    Option SequenceSelector :=
  let selected := s.selectedMap.getD (collectById idOf (s.selectedVec.map Prod.snd))
  match selected.lookup txId with
  | none => none
  | some key => (s.lanes.reject key.tx.subnetworkId key.tx.gas.toNat).map fun lanes =>
      { s with selectedMap := some (selected.erase txId), lanes,
               totalSelectedMass := s.totalSelectedMass - key.mass }

end SequenceSelector

/-! ## By weighted draws -/

def maxNullAttempts : Nat := 8

structure MutatingTreeSelector where
  tree : List FeerateTransactionKey
  /-- Drawn, but too heavy for the gap of their round. -/
  massDeferred : List FeerateTransactionKey
  selectedVec : List FeerateTransactionKey
  selectedMap : Option (Map TransactionId FeerateTransactionKey)
  gap : Nat
  lanes : LaneSelectionState
  policy : Policy

namespace MutatingTreeSelector

def new (policy : Policy) (tree : List FeerateTransactionKey) : MutatingTreeSelector :=
  ⟨tree, [], [], none, policy.maxBlockMass, ∅, policy⟩

/-- A drawn transaction, which is out of the tree by now. -/
def visit (s : MutatingTreeSelector) (candidate : FeerateTransactionKey) : MutatingTreeSelector :=
  if candidate.mass > s.gap then { s with massDeferred := s.massDeferred ++ [candidate] }
  else
    match s.lanes.trySelect s.policy candidate.tx.subnetworkId candidate.tx.gas.toNat with
    | none => s
    | some lanes => { s with lanes, gap := s.gap - candidate.mass, selectedVec := s.selectedVec ++ [candidate] }

/-- A round of draws, as many as there are transactions at most. -/
def drawLoop : Nat → List Nat → Nat → MutatingTreeSelector → MutatingTreeSelector
  | 0, _, _, s => s
  | fuel + 1, queries, nullAttempts, s =>
    if nullAttempts < maxNullAttempts then
      let place := queries.headD 0 % s.tree.length
      match s.tree[place]? with
      | none => s
      | some candidate =>
        let drawn := { s with tree := s.tree.eraseIdx place }
        drawLoop fuel queries.tail (if candidate.mass > s.gap then nullAttempts + 1 else nullAttempts)
          (drawn.visit candidate)
    else s

def selectTransactions (s : MutatingTreeSelector) (queries : List Nat) : MutatingTreeSelector × List Transaction :=
  let restored := s.tree ++ s.massDeferred.filter fun candidate => candidate.mass ≤ s.gap
  let fresh := { s with tree := restored, massDeferred := [], selectedVec := [], selectedMap := none }
  let selected := drawLoop restored.length queries 0 fresh
  (selected, selected.selectedVec.map FeerateTransactionKey.tx)

def rejectSelection (idOf : Transaction → TransactionId) (s : MutatingTreeSelector) (txId : TransactionId) :
    Option MutatingTreeSelector :=
  let (selected, left) := match s.selectedMap with
    | some selected => (selected, s.selectedVec)
    | none => (collectById idOf s.selectedVec, [])
  match selected.lookup txId with
  | none => none
  | some key => (s.lanes.reject key.tx.subnetworkId key.tx.gas.toNat).map fun lanes =>
      { s with selectedVec := left, selectedMap := some (selected.erase txId), lanes, gap := s.gap + key.mass }

end MutatingTreeSelector

/-! ## The frontier -/

/-- The ready transactions, lowest feerate first, and their total mass. -/
structure Frontier where
  searchTree : List FeerateTransactionKey
  totalMass : Nat

structure SampleMassTracker where
  sampled : Nat
  /-- What a selection of the sampled transactions in their order would leave of the block. -/
  gap : Nat
  desired : Nat
  nullAttempts : Nat
  targetGap : Nat

namespace SampleMassTracker

def new (policy : Policy) : SampleMassTracker :=
  ⟨0, policy.maxBlockMass, policy.maxBlockMass * 12 / 10, 0, policy.maxBlockMass * 5 / 100⟩

def shouldContinue (t : SampleMassTracker) : Bool :=
  t.sampled ≤ t.desired || (t.nullAttempts < maxNullAttempts && t.gap > t.targetGap)

def record (t : SampleMassTracker) (mass : Nat) : SampleMassTracker :=
  let sampled := saturatingAdd t.sampled mass
  if mass ≤ t.gap then { t with sampled, gap := t.gap - mass }
  else { t with sampled, nullAttempts := t.nullAttempts + 1 }

end SampleMassTracker

structure SampleState where
  cache : List TransactionId
  sequence : List FeerateTransactionKey
  mass : SampleMassTracker
  occupied : List SubnetworkId
  frozen : Bool

def SampleState.push (s : SampleState) (item : FeerateTransactionKey) : SampleState :=
  { s with sequence := s.sequence ++ [item], mass := s.mass.record item.mass }

namespace Frontier

variable (idOf : Transaction → TransactionId)

/-- One draw after the other; what was drawn before is drawn again. The draws end at the latest when there is
nothing left to narrow the sampling space to. -/
def sampleLoop (F : Frontier) (policy : Policy) : List Nat → SampleState → SampleState
  | [], s => s
  | query :: queries, s =>
    if s.cache.length < F.searchTree.length ∧ s.mass.shouldContinue then
      match F.searchTree[query % F.searchTree.length]? with
      | none => s
      | some item =>
        if idOf item.tx ∈ s.cache then sampleLoop F policy queries s
        else
          let cached := { s with cache := idOf item.tx :: s.cache }
          if s.occupied.length < policy.lanesPerBlockLimit then
            sampleLoop F policy queries
              (SampleState.push { cached with occupied := s.occupied.insert item.tx.subnetworkId } item)
          else if item.tx.subnetworkId ∉ s.occupied then { cached with frozen := true }
          else sampleLoop F policy queries (cached.push item)
    else s

/-- The best transactions left in the occupied lanes. -/
def finishIntraLaneSelection : List FeerateTransactionKey → SampleState → SampleState
  | [], s => s
  | item :: rest, s =>
    if s.mass.shouldContinue then
      finishIntraLaneSelection rest (s.push item)
    else s

def sampleInplace (F : Frontier) (policy : Policy) (queries : List Nat) : List FeerateTransactionKey :=
  let s := sampleLoop idOf F policy queries ⟨[], [], .new policy, [], false⟩
  if s.frozen then
    let left := F.searchTree.reverse.filter fun item =>
      item.tx.subnetworkId ∈ s.occupied ∧ idOf item.tx ∉ s.cache
    (finishIntraLaneSelection left s).sequence
  else s.sequence

end Frontier

/-! ## Selectors -/

inductive InnerSelector where
  | takeAll (policy : Policy) (txs : List Transaction)
  | sequence (s : SequenceSelector)
  | tree (s : MutatingTreeSelector)

def collisionFactor : Nat := 4

namespace InnerSelector

def selectTransactions : InnerSelector → List Nat → InnerSelector × List Transaction
  | takeAll policy txs, _ => (takeAll policy [], Mining.takeAll policy ∅ txs)
  | sequence s, _ => (sequence s.selectTransactions.1, s.selectTransactions.2)
  | tree s, queries => (tree (s.selectTransactions queries).1, (s.selectTransactions queries).2)

def rejectSelection (idOf : Transaction → TransactionId) : InnerSelector → TransactionId → Option InnerSelector
  | takeAll policy txs, _ => some (takeAll policy txs)
  | sequence s, txId => (s.rejectSelection idOf txId).map sequence
  | tree s, txId => (s.rejectSelection idOf txId).map tree

end InnerSelector

/-- A small frontier is taken whole, a large one sampled in place, one in between drawn from. -/
def Frontier.buildSelector (F : Frontier) (policy : Policy) (queries : List Nat) : InnerSelector :=
  if F.totalMass ≤ policy.maxBlockMass then
    .takeAll policy (F.searchTree.reverse.map FeerateTransactionKey.tx)
  else if F.totalMass > policy.maxBlockMass * collisionFactor then
    .sequence (.new (F.sampleInplace idOf policy queries) policy)
  else .tree (.new policy F.searchTree)

inductive TemplateSelector where
  | plain (inner : InnerSelector)
  /-- `ForcedInclusionSelector`. -/
  | forced (forced : List Transaction) (forcedIds : List TransactionId) (inner : InnerSelector)

namespace TemplateSelector

variable (idOf : Transaction → TransactionId)

def selectTransactions : TemplateSelector → List Nat → TemplateSelector × List Transaction
  | plain inner, queries =>
    (plain (inner.selectTransactions queries).1, (inner.selectTransactions queries).2)
  | forced txs forcedIds inner, queries =>
    let (inner, batch) := inner.selectTransactions queries
    (forced [] forcedIds inner, txs ++ batch.filter fun tx => idOf tx ∉ forcedIds)

def rejectSelection : TemplateSelector → TransactionId → Option TemplateSelector
  | plain inner, txId => (inner.rejectSelection idOf txId).map plain
  | forced txs forcedIds inner, txId =>
    if txId ∈ forcedIds then some (forced txs (forcedIds.filter fun id => id ≠ txId) inner)
    else (inner.rejectSelection idOf txId).map (forced txs forcedIds)

end TemplateSelector

/-- `TransactionsPool::build_selector`: transactions of the finality anchor lane are included by force. -/
def buildSelector (allTransactions : List Transaction) (F : Frontier)
    (policy : Policy) (queries : List Nat) : TemplateSelector :=
  let inner := F.buildSelector idOf policy queries
  let txs := allTransactions.filter fun tx => tx.subnetworkId = SubnetworkId.finalityAnchor
  if txs.isEmpty then .plain inner else .forced txs (txs.map idOf) inner

end Marigold.Mining
