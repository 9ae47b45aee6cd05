import Marigold.Consensus.Dag

/-!
# Depth points (`block_depth.rs`)

The merge depth root and the finality point of a block are found by a walk up its selected chain, from
the stored point of the selected parent or, where that has none, from the pruning point.
-/

namespace Marigold.Consensus

open Lib

/-- `blockhash::ORIGIN`. -/
def origin : Hash := Hash.fromBytes (List.replicate 32 0xfe)

inductive BlockDepthType
  | mergeRoot
  | finality

structure BlockDepthInfo where
  mergeDepthRoot : Hash
  finalityPoint : Hash

structure BlockDepthManager where
  mergeDepth : UInt64
  finalityDepth : UInt64
  genesisHash : Hash
  depthStore : Hash → BlockDepthInfo
  dag : Dag

namespace BlockDepthManager

variable (B : BlockDepthManager)

def depth : BlockDepthType → Nat
  | .mergeRoot => B.mergeDepth.toNat
  | .finality => B.finalityDepth.toNat

def stored (type : BlockDepthType) (h : Hash) : Hash :=
  match type with
  | .mergeRoot => (B.depthStore h).mergeDepthRoot
  | .finality => (B.depthStore h).finalityPoint

def score (h : Hash) : Nat := (B.dag.blueScore h).toNat

/-- The loop over the chain, which ends at the first block with the required blue score. -/
def walkUp (required : Nat) (current : Hash) : List Hash → Hash
  | [] => current
  | chainBlock :: rest => if required ≤ B.score chainBlock then current else walkUp required chainBlock rest

variable (data : GhostdagData)

/-- The sum of the blue score and the depth panics past 64 bits. -/
def calculateBlockAtDepth (type : BlockDepthType) (pruningPoint : Hash) : Hash :=
  if data.selectedParent = origin then origin
  else if data.blueScore.toNat < B.depth type then B.genesisHash
  else if data.blueScore.toNat < B.score pruningPoint + B.depth type then origin
  else if B.dag.isChainAncestorOf pruningPoint data.selectedParent = false then origin
  else
    let stored := B.stored type data.selectedParent
    let current := if stored = origin then pruningPoint else stored
    B.walkUp (data.blueScore.toNat - B.depth type) current (B.dag.forwardChain current data.selectedParent)

def calcMergeDepthRoot (pruningPoint : Hash) : Hash :=
  B.calculateBlockAtDepth data .mergeRoot pruningPoint

def calcFinalityPoint (pruningPoint : Hash) : Hash :=
  B.calculateBlockAtDepth data .finality pruningPoint

/-- The highest block of a chain with a blue score below `score - depth`, the genesis if there is none. -/
def highestBelow (type : BlockDepthType) (tip : Hash) (score : Nat) : Hash :=
  ((B.dag.backwardChain tip).find? fun h => B.score h + B.depth type < score).getD B.genesisHash

/-- The walk starts at the pruning point, which has exactly the required blue score. -/
def AtBoundary (type : BlockDepthType) (pruningPoint : Hash) : Prop :=
  B.stored type data.selectedParent = origin ∧ pruningPoint ≠ B.genesisHash ∧
    data.blueScore.toNat = B.score pruningPoint + B.depth type

/-- The stored points up to a block: `ORIGIN` for the genesis and for blocks that came with a pruning proof,
otherwise what was computed with the pruning point of the time, never at the boundary. -/
inductive Filled (type : BlockDepthType) : Hash → Prop
  | given {h : Hash} (none : B.stored type h = origin) : Filled type h
  | computed {h p : Hash} (pruningPoint : Hash) (above : B.dag.chainParent h = some p) (parent : Filled type p)
      (is : B.stored type h = B.calculateBlockAtDepth (B.dag.ghostdagData h) type pruningPoint)
      (clear : ¬ B.AtBoundary (B.dag.ghostdagData h) type pruningPoint) : Filled type h

/-- The chain begins with the genesis. -/
structure FromGenesis : Prop where
  root : B.dag.root = B.genesisHash
  zero : B.score B.genesisHash = 0

variable {B} {type : BlockDepthType} {tip h current pruningPoint : Hash} {data : GhostdagData}

/-- Below the passed blocks nothing changes, and above a block that is high enough all are. -/
theorem walkUp_eq_find {required : Nat} {up below : List Hash} (default : Hash)
    (falls : (up.reverse ++ current :: below).Pairwise fun a b => B.score b < B.score a)
    (low : B.score current < required) : B.walkUp required current up =
      ((up.reverse ++ current :: below).find? fun h => B.score h < required).getD default := by
  induction up generalizing current below with
  | nil => simp [walkUp, low]
  | cons next up ih =>
    rw [List.reverse_cons, List.append_assoc, List.singleton_append] at falls ⊢
    rw [walkUp]
    split
    next high =>
      have higher := (List.pairwise_append.mp falls).2.2
      have none : (up.reverse.find? fun h => decide (B.score h < required)) = none := by
        refine List.find?_eq_none.mpr fun h member => ?_
        have := higher h member next List.mem_cons_self
        simp only [decide_eq_true_eq]
        omega
      simp [none, low, Nat.not_lt.mpr high]
    next passed => exact ih falls (Nat.not_le.mp passed)

theorem highestBelow_of_none {score : Nat} (none : ∀ h ∈ B.dag.backwardChain tip, score ≤ B.score h + B.depth type) :
    B.highestBelow type tip score = B.genesisHash := by
  rw [highestBelow, List.find?_eq_none.mpr (by simpa using none)]
  rfl

theorem highestBelow_mem (type : BlockDepthType) (genesis : B.FromGenesis) (onRoot : B.dag.OnRoot tip) (score : Nat) :
    B.highestBelow type tip score ∈ B.dag.backwardChain tip ∧ (B.highestBelow type tip score = B.genesisHash ∨
        B.score (B.highestBelow type tip score) + B.depth type < score) := by
  rw [highestBelow]
  cases found : (B.dag.backwardChain tip).find? fun h => decide (B.score h + B.depth type < score) with
  | none =>
    have bottom := B.dag.isChainAncestorOf_iff.mp onRoot.2
    exact ⟨genesis.root ▸ bottom, .inl rfl⟩
  | some h => exact ⟨List.mem_of_find?_eq_some found, .inr (by simpa using List.find?_some found)⟩

/-- The walk from a block of the chain that is below the point, or from a genesis that has to be it. -/
theorem walkUp_forwardChain {score : Nat} (member : current ∈ B.dag.backwardChain tip)
    (start : B.score current + B.depth type < score ∨ current = B.genesisHash ∧ score ≤ B.depth type) :
    B.walkUp (score - B.depth type) current (B.dag.forwardChain current tip) = B.highestBelow type tip score := by
  obtain ⟨above, below, line, path⟩ := B.dag.forest.path_eq member
  rw [Dag.forwardChain, path, walkUp]
  rcases start with low | ⟨rfl, few⟩
  · have falls := B.dag.forest.line_falls tip
    rw [line, ← above.reverse_reverse] at falls
    have asked : ∀ h, (B.score h < score - B.depth type) = (B.score h + B.depth type < score) := fun h => by
      simp only [eq_iff_iff]
      omega
    rw [if_neg (by omega), walkUp_eq_find B.genesisHash falls (by omega), List.reverse_reverse, highestBelow,
      Dag.backwardChain, line]
    simp only [asked]
  · rw [if_pos (by omega), highestBelow_of_none fun h _ => by omega]

/-- What is known of a stored point that is not `ORIGIN`. -/
def StoredSound (B : BlockDepthManager) (type : BlockDepthType) (h : Hash) : Prop :=
  B.stored type h = origin ∨ B.stored type h ∈ B.dag.backwardChain h ∧
    (B.stored type h = B.genesisHash ∨ B.score (B.stored type h) + B.depth type < B.score h)

/-- One block: the answer is the highest block unless the walk starts at the boundary. -/
theorem calculateBlockAtDepth_step (genesis : B.FromGenesis) (onRoot : B.dag.OnRoot data.selectedParent)
    (sound : B.StoredSound type data.selectedParent) (rises : B.score data.selectedParent < data.blueScore.toNat)
    (answers : B.calculateBlockAtDepth data type pruningPoint ≠ origin) :
    B.calculateBlockAtDepth data type pruningPoint = B.highestBelow type data.selectedParent data.blueScore.toNat ↔
      ¬ B.AtBoundary data type pruningPoint := by
  have zero := genesis.zero
  unfold calculateBlockAtDepth at answers ⊢
  split at answers
  · exact absurd rfl answers
  split at answers
  next proper few =>
    rw [if_neg proper, if_pos few]
    refine iff_of_true (highestBelow_of_none fun h _ => by omega).symm fun boundary => ?_
    have := boundary.2.2
    omega
  split at answers
  · exact absurd rfl answers
  split at answers
  · exact absurd rfl answers
  next proper enough deep onChain =>
    rw [if_neg proper, if_neg enough, if_neg deep, if_neg onChain]
    have member : pruningPoint ∈ B.dag.backwardChain data.selectedParent := by simpa using onChain
    by_cases missing : B.stored type data.selectedParent = origin
    · simp only [if_pos missing]
      by_cases boundary : B.AtBoundary data type pruningPoint
      · -- the walk stops at once, at a block that is not below the point
        obtain ⟨-, other, exactly⟩ := boundary
        refine iff_of_false (fun same => ?_) (not_not.mpr ⟨missing, other, exactly⟩)
        rw [Dag.forwardChain, Forest.path, walkUp, if_pos (by omega)] at same
        rcases (highestBelow_mem type genesis onRoot data.blueScore.toNat).2 with base | below
        · exact other (same.trans base)
        · rw [← same] at below
          omega
      · refine iff_of_true (walkUp_forwardChain member ?_) boundary
        by_cases base : pruningPoint = B.genesisHash
        · simp only [base, zero, true_and]
          omega
        · have : data.blueScore.toNat ≠ B.score pruningPoint + B.depth type :=
            fun exactly => boundary ⟨missing, base, exactly⟩
          omega
    · simp only [if_neg missing]
      obtain ⟨member', start⟩ := sound.resolve_left missing
      refine iff_of_true (walkUp_forwardChain member' ?_) fun boundary => missing boundary.1
      rcases start with base | below
      · simp only [base, zero, true_and]
        omega
      · omega

theorem Filled.sound (genesis : B.FromGenesis) (filled : B.Filled type h) (onRoot : B.dag.OnRoot h) :
    B.StoredSound type h := by
  induction filled with
  | given none => exact .inl none
  | @computed h p pruningPoint above parent is clear ih =>
    by_cases missing : B.stored type h = origin
    · exact .inl missing
    obtain ⟨notRoot, known, parentKnown, rfl⟩ := B.dag.chainParent_eq_some.mp above
    have onRoot' := (onRoot.cases.resolve_left notRoot).2.2
    have rises := UInt64.lt_iff_toNat_lt.mp (B.dag.rises h notRoot known parentKnown)
    have point := (calculateBlockAtDepth_step genesis onRoot' (ih onRoot') rises (is ▸ missing)).mpr clear
    obtain ⟨member, low⟩ := highestBelow_mem type genesis onRoot' (B.score h)
    rw [StoredSound, is, point, Dag.backwardChain, B.dag.forest.line_of_parent above]
    exact .inr ⟨.tail _ member, low⟩

/-- Where the points stored along the chain were never computed at the boundary, an answer other than
`ORIGIN` is the highest block of the chain below the depth exactly if it is not computed there either. -/
theorem calculateBlockAtDepth_highest_iff (B : BlockDepthManager) (type : BlockDepthType) (data : GhostdagData)
    (pruningPoint : Hash) (genesis : B.FromGenesis) (onRoot : B.dag.OnRoot data.selectedParent)
    (rises : B.score data.selectedParent < data.blueScore.toNat) (filled : B.Filled type data.selectedParent)
    (answers : B.calculateBlockAtDepth data type pruningPoint ≠ origin) :
    B.calculateBlockAtDepth data type pruningPoint =
        B.highestBelow type data.selectedParent data.blueScore.toNat ↔
      ¬ B.AtBoundary data type pruningPoint :=
  calculateBlockAtDepth_step genesis onRoot (filled.sound genesis onRoot) rises answers

end BlockDepthManager

namespace DepthSample

open BlockDepthManager

/-- Four blocks in a row, the genesis first. -/
def dag : Dag where
  root := 1#256
  known h := decide (h ∈ [1#256, 2#256, 3#256, 4#256])
  block h := ⟨⟨h, [], 0, 0, 0, 0, 0, 0, 0⟩, []⟩
  ghostdagData h := ⟨UInt64.ofNat (h.toNat - 1), h - 1#256, [], []⟩
  blueWork h := h.toNat
  rises h notRoot known _ := by
    simp only [decide_eq_true_eq, List.mem_cons, List.not_mem_nil, or_false] at known
    rcases known with rfl | rfl | rfl | rfl
    · exact absurd rfl notRoot
    all_goals decide

/-- A node with depth 2 for both points and the given stored ones. -/
def node (points : Hash → Hash) : BlockDepthManager := ⟨2, 2, 1#256, fun h => ⟨points h, points h⟩, dag⟩

/-- A node with all blocks. -/
def full : BlockDepthManager := node fun h => if h = 1#256 then origin else 1#256

/-- A node that began at the third block. -/
def pruned : BlockDepthManager := node fun _ => origin

/-- The next block. -/
def next : GhostdagData := ⟨4, 4#256, [], []⟩

theorem fromGenesis (points : Hash → Hash) : (node points).FromGenesis := ⟨rfl, rfl⟩

theorem full_filled : full.Filled .finality 4#256 := by
  have first : full.Filled .finality 1#256 := .given rfl
  have second : full.Filled .finality 2#256 :=
    .computed 1#256 (by decide) first (by decide +kernel) fun boundary => boundary.2.1 rfl
  have third : full.Filled .finality 3#256 :=
    .computed 1#256 (by decide) second (by decide +kernel) fun boundary => boundary.2.1 rfl
  exact .computed 1#256 (by decide) third (by decide +kernel) fun boundary => boundary.2.1 rfl

end DepthSample

open DepthSample in
theorem calculateBlockAtDepth_highest_iff_next :
    full.calcFinalityPoint next 1#256 = full.highestBelow .finality 4#256 4 :=
  (BlockDepthManager.calculateBlockAtDepth_highest_iff full .finality next 1#256 (fromGenesis _) ⟨by decide, by decide⟩
    (by decide) full_filled (by decide +kernel)).mpr fun boundary => boundary.2.1 rfl

open DepthSample in
/-- Two nodes with different pruning points answer differently. -/
theorem calcFinalityPoint_depends_on_pruning :
    full.Filled .finality 4#256 ∧ pruned.Filled .finality 4#256 ∧
      full.calcFinalityPoint next 1#256 = 2#256 ∧ pruned.calcFinalityPoint next 3#256 = 3#256 ∧
      pruned.highestBelow .finality 4#256 4 = 2#256 :=
  ⟨full_filled, .given rfl, by decide +kernel, by decide +kernel, by decide +kernel⟩

end Marigold.Consensus
