import Marigold.Lib.Ancestry
import Marigold.Consensus.Chain

/-!
# The block DAG

What the virtual processor reads of the DAG: headers, bodies and GHOSTDAG data, and reachability
along selected parents (`model/services/reachability.rs`). The root is the block the node's states
start from, genesis or an imported pruning point.
-/

namespace Marigold.Consensus

open Lib NotePool Utxo

/-- `merge_join_by`: the next item is the first list's if it sorts before the second's. -/
def mergeJoin {α : Type} (before : α → α → Bool) : List α → List α → List α
  | [], bs => bs
  | a :: as, bs =>
    bs.takeWhile (!before a ·) ++ a :: mergeJoin before as (bs.dropWhile (!before a ·))

/-- Blocks with their GHOSTDAG data. What is said of a block that is not known means nothing. -/
structure Dag where
  root : Hash
  known : Hash → Bool
  block : Hash → Block
  ghostdagData : Hash → GhostdagData
  blueWork : Hash → Nat
  /-- A block has a higher blue score than its selected parent. -/
  rises : ∀ h, h ≠ root → known h = true → known (ghostdagData h).selectedParent = true →
    (ghostdagData (ghostdagData h).selectedParent).blueScore < (ghostdagData h).blueScore

namespace Dag

variable (D : Dag)

variable (h : Hash)

def header : Header := (D.block h).header

def selectedParent : Hash := (D.ghostdagData h).selectedParent

def blueScore : UInt64 := (D.ghostdagData h).blueScore

/-- The order of `SortableBlock`. -/
def sortsBefore (a b : Hash) : Bool :=
  D.blueWork a < D.blueWork b || D.blueWork a == D.blueWork b && a ≤ b

/-- `consensus_ordered_mergeset_without_selected_parent`: the other blues and the reds, both in
order, merged. -/
def mergeset : List Hash :=
  mergeJoin D.sortsBefore ((D.ghostdagData h).mergesetBlues.drop 1) (D.ghostdagData h).mergesetReds

def mergesetBlocks : List Block := (D.mergeset h).map D.block

/-- The parent of a block in the selected parent tree above the root. -/
def chainParent : Option Hash :=
  if h ≠ D.root ∧ D.known h = true ∧ D.known (D.selectedParent h) = true then
    some (D.selectedParent h)
  else none

theorem chainParent_eq_some {h p : Hash} : D.chainParent h = some p ↔
    h ≠ D.root ∧ D.known h = true ∧ D.known p = true ∧ D.selectedParent h = p := by
  unfold chainParent
  split
  next above =>
    obtain ⟨notRoot, known, parentKnown⟩ := above
    constructor
    · rintro ⟨rfl⟩
      exact ⟨notRoot, known, parentKnown, rfl⟩
    · rintro ⟨_, _, _, rfl⟩
      rfl
  next notAbove =>
    constructor
    · exact nofun
    · rintro ⟨notRoot, known, parentKnown, rfl⟩
      exact absurd ⟨notRoot, known, parentKnown⟩ notAbove

def forest : Forest Hash where
  parent := D.chainParent
  rank h := (D.blueScore h).toNat
  falls h p above := by
    obtain ⟨notRoot, known, parentKnown, rfl⟩ := D.chainParent_eq_some.mp above
    exact UInt64.lt_iff_toNat_lt.mp (D.rises h notRoot known parentKnown)

/-- `default_backward_chain_iterator`, down to the root. -/
def backwardChain : List Hash := D.forest.line h

def isChainAncestorOf (ancestor h : Hash) : Bool := ancestor ∈ D.backwardChain h

@[simp] theorem isChainAncestorOf_iff {ancestor h : Hash} :
    D.isChainAncestorOf ancestor h = true ↔ ancestor ∈ D.backwardChain h :=
  decide_eq_true_iff

/-- `forward_chain_iterator`, both ends included. -/
def forwardChain (ancestor h : Hash) : List Hash := D.forest.path ancestor h

/-- A known block with the root on its selected chain. -/
def OnRoot : Prop := D.known h = true ∧ D.isChainAncestorOf D.root h = true

def AboveRoot : Prop := D.OnRoot h ∧ h ≠ D.root

variable {D}

theorem backwardChain_root : D.backwardChain D.root = [D.root] :=
  D.forest.line_of_root (by simp [forest, chainParent])

variable {h}

theorem OnRoot.cases (onRoot : D.OnRoot h) :
    h = D.root ∨ h ≠ D.root ∧ D.chainParent h = some (D.selectedParent h) ∧ D.OnRoot (D.selectedParent h) := by
  obtain ⟨known, above⟩ := onRoot
  have member : D.root ∈ D.forest.line h := D.isChainAncestorOf_iff.mp above
  by_cases isRoot : h = D.root
  · exact .inl isRoot
  · refine .inr ⟨isRoot, ?_⟩
    cases parent : D.chainParent h with
    | none =>
      rw [D.forest.line_of_root parent, List.mem_singleton] at member
      exact absurd member.symm isRoot
    | some p =>
      obtain ⟨_, _, parentKnown, rfl⟩ := D.chainParent_eq_some.mp parent
      rw [D.forest.line_of_parent parent] at member
      refine ⟨rfl, parentKnown, ?_⟩
      rcases List.mem_cons.mp member with same | later
      · exact absurd same.symm isRoot
      · exact D.isChainAncestorOf_iff.mpr later

theorem OnRoot.child {h p : Hash} (onRoot : D.OnRoot p) (above : D.chainParent h = some p) : D.OnRoot h := by
  obtain ⟨_, known, _⟩ := D.chainParent_eq_some.mp above
  have line : D.backwardChain h = h :: D.backwardChain p := D.forest.line_of_parent above
  refine ⟨known, D.isChainAncestorOf_iff.mpr ?_⟩
  rw [line]
  exact .tail _ (D.isChainAncestorOf_iff.mp onRoot.2)

end Dag

end Marigold.Consensus
