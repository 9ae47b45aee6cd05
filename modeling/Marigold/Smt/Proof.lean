import Marigold.Smt.Exact

/-!
# Inclusion and absence proofs

`crypto/smt/src/proof.rs` and `prove` of `tree.rs`. A proof lists the siblings on the way down to a key,
without the empty ones, and says how the descent ended. Checking it hashes back up to the root.
-/

namespace Marigold.Smt

open Lib Lib.Bits

inductive SmtProofError where
  | siblingCountMismatch (expected actual : Nat)
  deriving DecidableEq, Repr

instance neZero_keyBits : NeZero 256 := ⟨by decide⟩

/-- How a descent ended: at a leaf, at a subtree that is the single leaf asked for, or at one that is
another single leaf. -/
inductive ProofTerminal where
  | full
  | collapsed (depth : Fin 256)
  | collapsedOther (depth : Fin 256) (leaf : CollapsedLeaf)
  deriving DecidableEq, Repr

def ProofTerminal.depth : ProofTerminal → Nat
  | full => 256
  | collapsed depth => depth
  | collapsedOther depth _ => depth

/-- A set bit of the bitmap stands for an empty sibling, which is left out of the list. -/
structure SmtProof where
  bitmap : BitVec 256
  siblings : List Hash
  terminal : ProofTerminal
  deriving DecidableEq, Repr

/-- Bit `d % 8` of byte `d / 8`. -/
def isEmptyAtDepth (bitmap : BitVec 256) (d : Nat) : Bool := bitmap.getLsbD d

def bitmapClearCountBefore (bitmap : BitVec 256) (terminal : ProofTerminal) : Nat :=
  ((List.range terminal.depth).filter fun d => !isEmptyAtDepth bitmap d).length

/-! ## Making a proof -/

variable (H : SmtHasher)

/-- The hash of the sibling at a level, `none` for an empty one. Below the last level are leaves. -/
def siblingHash (getNode : SmtStore) (getLeaf : Hash → Option Hash) (key : Hash) (depth : Nat) : Option Hash :=
  if depth = 255 then
    (getLeaf (twin key)).map fun leafHash => hashNode H.collapsed (twin key) leafHash
  else
    match getNode (childBranchKey (.new depth key) (!bitAt key depth) depth) with
    | none => none
    | some (.internal hash) => some hash
    | some (.collapsed leaf) => some (hashNode H.collapsed leaf.laneKey leaf.leafHash)

def setBit (bitmap : BitVec 256) (d : Nat) : BitVec 256 := bitmap ||| BitVec.twoPow 256 d

/-- The bits of the last `count` levels. -/
def setLast (bitmap : BitVec 256) : Nat → BitVec 256
  | 0 => bitmap
  | count + 1 => setLast (setBit bitmap (255 - count)) count

/-- The descent from a node with `height` levels below it on. -/
def proveFrom (H : SmtHasher) (getNode : SmtStore) (getLeaf : Hash → Option Hash) (key : Hash) :
    Nat → BitVec 256 → List Hash → SmtProof
  | 0, bitmap, siblings => ⟨bitmap, siblings, .full⟩
  | height + 1, bitmap, siblings =>
    match getNode (.new (255 - height) key) with
    | some (.internal _) =>
      match siblingHash H getNode getLeaf key (255 - height) with
      | none => proveFrom H getNode getLeaf key height (setBit bitmap (255 - height)) siblings
      | some hash => proveFrom H getNode getLeaf key height bitmap (siblings ++ [hash])
    | some (.collapsed leaf) =>
      let depth : Fin 256 := ⟨255 - height, by omega⟩
      ⟨setLast bitmap (height + 1), siblings,
        if leaf.laneKey = key then .collapsed depth else .collapsedOther depth leaf⟩
    | none => ⟨setLast bitmap (height + 1), siblings, .full⟩

def prove (getNode : SmtStore) (getLeaf : Hash → Option Hash) (key : Hash) : SmtProof :=
  proveFrom H getNode getLeaf key 256 0#256 []

/-! ## Checking a proof -/

/-- Hashes of branches by position. -/
abbrev ProofBranchCache := Map BranchKey Hash

variable (terminal : ProofTerminal)

/-- The hash at the end of the descent. -/
def initialHash (key : Hash) : Option Hash → Hash
  | some leafHash => hashNode H.collapsed key leafHash
  | none =>
    match terminal with
    | .collapsedOther _ leaf =>
      if leaf.laneKey ≠ key then hashNode H.collapsed leaf.laneKey leaf.leafHash else Hash.zero
    | _ => Hash.zero

/-- The next sibling of a list that starts with the deepest one. The count has been checked, so the
list is never too short. -/
def nextSibling (bitmap : BitVec 256) (d : Nat) (siblings : List Hash) : Hash × List Hash :=
  if isEmptyAtDepth bitmap d then (emptyHashes H (255 - d), siblings)
  else (siblings.headD Hash.zero, siblings.tail)

/-- What is hashed at a level. -/
def branchInput (key : Hash) (d : Nat) (current sibling : Hash) : Hash × Hash :=
  if bitAt key d then (sibling, current) else (current, sibling)

/-- The loop over the levels above `d`; with a cache, a branch that is there is not hashed again. -/
def climb (H : SmtHasher) (bitmap : BitVec 256) (key : Hash) :
    Nat → List Hash → Hash → Option ProofBranchCache → Hash × Option ProofBranchCache
  | 0, _, current, cache => (current, cache)
  | d + 1, siblings, current, cache =>
    let next := nextSibling H bitmap d siblings
    let input := branchInput key d current next.1
    match cache with
    | none => climb H bitmap key d next.2 (hashNode H.node input.1 input.2) none
    | some branches =>
      match branches.lookup (.new d key) with
      | some cached => climb H bitmap key d next.2 cached (some branches)
      | none =>
        let nodeHash := hashNode H.node input.1 input.2
        climb H bitmap key d next.2 nodeHash (some (branches.insert (.new d key) nodeHash))

def computeRootInner (proof : SmtProof) (key : Hash) (leafHash : Option Hash)
    (cache : Option ProofBranchCache) : Except SmtProofError (Hash × Option ProofBranchCache) :=
  let expected := bitmapClearCountBefore proof.bitmap proof.terminal
  if proof.siblings.length ≠ expected then
    .error (.siblingCountMismatch expected proof.siblings.length)
  else .ok (climb H proof.bitmap key proof.terminal.depth proof.siblings.reverse
    (initialHash H proof.terminal key leafHash) cache)

namespace SmtProof

def computeRoot (H : SmtHasher) (proof : SmtProof) (key : Hash) (leafHash : Option Hash) : Except SmtProofError Hash :=
  (computeRootInner H proof key leafHash none).map Prod.fst

def verify (H : SmtHasher) (proof : SmtProof) (key : Hash) (leafHash : Option Hash) (root : Hash) :
    Except SmtProofError Bool :=
  (proof.computeRoot H key leafHash).map (· == root)

/-- The verdict and the cache afterwards. -/
def verifyCached (H : SmtHasher) (proof : SmtProof) (key : Hash) (leafHash : Option Hash) (root : Hash)
    (cache : ProofBranchCache) : Except SmtProofError Bool × ProofBranchCache :=
  match computeRootInner H proof key leafHash (some cache) with
  | .error error => (.error error, cache)
  | .ok (computed, cache') => (.ok (computed == root), cache'.getD cache)

end SmtProof

/-! ## The climb without a cache -/

/-- The loop as a function of the siblings. -/
def ascend (H : SmtHasher) (bitmap : BitVec 256) (key : Hash) : Nat → List Hash → Hash → Hash
  | 0, _, current => current
  | d + 1, siblings, current =>
    let next := nextSibling H bitmap d siblings
    let input := branchInput key d current next.1
    ascend H bitmap key d next.2 (hashNode H.node input.1 input.2)

/-- The inputs it hashes. -/
def ascendInputs (H : SmtHasher) (bitmap : BitVec 256) (key : Hash) : Nat → List Hash → Hash → List (Hash × Hash)
  | 0, _, _ => []
  | d + 1, siblings, current =>
    let next := nextSibling H bitmap d siblings
    let input := branchInput key d current next.1
    input :: ascendInputs H bitmap key d next.2 (hashNode H.node input.1 input.2)

/-- The siblings a bitmap announces above a depth. -/
def clearBefore (bitmap : BitVec 256) (depth : Nat) : Nat :=
  ((List.range depth).filter fun d => !isEmptyAtDepth bitmap d).length

theorem climb_none (bitmap : BitVec 256) (key : Hash) (d : Nat) (siblings : List Hash) (current : Hash) :
    climb H bitmap key d siblings current none = (ascend H bitmap key d siblings current, none) := by
  induction d generalizing siblings current with
  | zero => rfl
  | succ d ih => exact ih _ _

theorem verify_eq (proof : SmtProof) (key : Hash) (leafHash : Option Hash) (root : Hash) :
    proof.verify H key leafHash root =
      if proof.siblings.length = clearBefore proof.bitmap proof.terminal.depth then
        .ok (ascend H proof.bitmap key proof.terminal.depth proof.siblings.reverse
          (initialHash H proof.terminal key leafHash) == root)
      else .error (.siblingCountMismatch (clearBefore proof.bitmap proof.terminal.depth) proof.siblings.length) := by
  simp only [SmtProof.verify, SmtProof.computeRoot, computeRootInner, climb_none]
  change (Except.map _ (Except.map _ (if proof.siblings.length ≠ clearBefore proof.bitmap
    proof.terminal.depth then _ else _))) = _
  by_cases count : proof.siblings.length = clearBefore proof.bitmap proof.terminal.depth
  · rw [if_neg (not_not.mpr count), if_pos count]
    rfl
  · rw [if_pos count, if_neg count]
    rfl

section Bitmap

variable {bitmap bitmap' : BitVec 256} {d : Nat}

theorem isEmptyAtDepth_setBit (bitmap : BitVec 256) (small : d < 256) (i : Nat) :
    isEmptyAtDepth (setBit bitmap d) i = (isEmptyAtDepth bitmap i || decide (i = d)) := by
  simp only [isEmptyAtDepth, setBit, BitVec.getLsbD_or, BitVec.getLsbD_twoPow]
  by_cases here : i = d
  · simp [here, small]
  · simp [here, Ne.symm here]

theorem isEmptyAtDepth_setLast {count : Nat} (fits : count ≤ 256) (i : Nat) :
    isEmptyAtDepth (setLast bitmap count) i = (isEmptyAtDepth bitmap i || decide (256 - count ≤ i ∧ i < 256)) := by
  induction count generalizing bitmap with
  | zero =>
    have outside : ¬ (256 - 0 ≤ i ∧ i < 256) := by omega
    rw [setLast, decide_eq_false outside, Bool.or_false]
  | succ count ih =>
    rw [setLast, ih (by omega), isEmptyAtDepth_setBit _ (by omega), Bool.or_assoc, ← Bool.decide_or]
    have same : (i = 255 - count ∨ 256 - count ≤ i ∧ i < 256) ↔ 256 - (count + 1) ≤ i ∧ i < 256 := by omega
    rw [decide_eq_decide.mpr same]

theorem clearBefore_succ (bitmap : BitVec 256) (d : Nat) :
    clearBefore bitmap (d + 1) = clearBefore bitmap d + if isEmptyAtDepth bitmap d then 0 else 1 := by
  rw [clearBefore, List.range_succ, List.filter_append, List.length_append]
  cases empty : isEmptyAtDepth bitmap d <;> simp [clearBefore, empty]

theorem clearBefore_congr (same : ∀ i < d, isEmptyAtDepth bitmap i = isEmptyAtDepth bitmap' i) :
    clearBefore bitmap d = clearBefore bitmap' d := by
  rw [clearBefore, clearBefore, List.filter_congr fun i inside => ?_]
  rw [same i (List.mem_range.mp inside)]

theorem ascend_congr (H : SmtHasher) (key : Hash)
    (same : ∀ i < d, isEmptyAtDepth bitmap i = isEmptyAtDepth bitmap' i) (siblings : List Hash) (current : Hash) :
    ascend H bitmap key d siblings current = ascend H bitmap' key d siblings current := by
  induction d generalizing siblings current with
  | zero => rfl
  | succ d ih =>
    have next : nextSibling H bitmap d siblings = nextSibling H bitmap' d siblings := by
      rw [nextSibling, nextSibling, same d (Nat.lt_succ_self d)]
    rw [ascend, ascend, next]
    exact ih (fun i below => same i (Nat.lt_succ_of_lt below)) _ _

end Bitmap

/-! ## The hash of a subtree -/

/-- What a subtree of height `n` is hashed to. -/
def NodeResult.hashAt (n : Nat) : NodeResult → Hash
  | empty => emptyHashes H n
  | collapsed leaf => hashNode H.collapsed leaf.laneKey leaf.leafHash
  | internal hash => hash

section Hashes

variable {H : SmtHasher} {leaves : LeafMap} {n : Nat} {p key : Hash}

theorem canonRoot_eq_hashAt (H : SmtHasher) (leaves : LeafMap) :
    canonRoot H leaves = (canon H leaves 256 Hash.zero).hashAt H 256 := by
  rw [canonRoot]
  cases canon H leaves 256 Hash.zero <;> rfl

theorem hash_eq_hashAt (fits : n < 256) (result : NodeResult) : result.hash H (255 - n) = result.hashAt H n := by
  cases result with
  | empty => rw [NodeResult.hash, NodeResult.hashAt, show 255 - (255 - n) = n by omega]
  | collapsed leaf => rfl
  | internal hash => rfl

/-- The two hashes below a position. -/
def childHashes (H : SmtHasher) (leaves : LeafMap) (n : Nat) (p : Hash) : Hash × Hash :=
  ((canon H leaves n (child n p false)).hashAt H n, (canon H leaves n (child n p true)).hashAt H n)

theorem hashAt_succ (fits : n < 256) (branched : ∀ leaf, canon H leaves (n + 1) p ≠ .collapsed leaf) :
    (canon H leaves (n + 1) p).hashAt H (n + 1) =
      hashNode H.node (childHashes H leaves n p).1 (childHashes H leaves n p).2 := by
  simp only [childHashes]
  rw [canon_succ] at branched ⊢
  generalize canon H leaves n (child n p false) = left at branched ⊢
  generalize canon H leaves n (child n p true) = right at branched ⊢
  cases left <;> cases right <;>
    first
    | exact absurd rfl (branched _)
    | rfl
    | simp only [mergedNode, hash_eq_hashAt fits, NodeResult.hashAt]

theorem childHashes_of_path (key : Hash) (d : Nat) : childHashes H leaves n p = branchInput key d
      ((canon H leaves n (child n p (bitAt key d))).hashAt H n)
      ((canon H leaves n (child n p !bitAt key d)).hashAt H n) := by
  cases bit : bitAt key d <;> simp [childHashes, branchInput, bit]

/-- The pairs hashed to the nodes of the tree, those of empty subtrees among them. -/
def treeNodes (H : SmtHasher) (leaves : LeafMap) : Set (Hash × Hash) :=
  {pair | ∃ n p, n < 256 ∧ Below (n + 1) p p ∧ (∀ leaf, canon H leaves (n + 1) p ≠ .collapsed leaf) ∧
    pair = childHashes H leaves n p}

/-- The keys and values hashed to its leaves. -/
def treeLeaves (leaves : LeafMap) : Set (Hash × Hash) :=
  {pair | leaves pair.1 = pair.2 ∧ pair.2 ≠ Hash.zero}

theorem OnlyLeaf.listed {leaf : CollapsedLeaf} (only : OnlyLeaf leaves n p leaf) :
    (leaf.laneKey, leaf.leafHash) ∈ treeLeaves leaves := ⟨only.2.1, only.2.2.1⟩

variable (H leaves) in
theorem lone_or_branched (sub : Subtree n p) :
    (∃ leaf, OnlyLeaf leaves n p leaf ∧ canon H leaves n p = .collapsed leaf) ∨
      ∀ leaf, canon H leaves n p ≠ .collapsed leaf := by
  cases result : canon H leaves n p with
  | collapsed leaf => exact .inl ⟨leaf, (canon_eq_collapsed sub).mp result, rfl⟩
  | empty => simp
  | internal hash => simp

variable (H leaves) in
/-- A subtree is hashed to the zero hash of an absent leaf, from its only leaf, or from its children. -/
theorem hashAt_cases (sub : Subtree n p) :
    (n = 0 ∧ leaves p = Hash.zero ∧ (canon H leaves n p).hashAt H n = Hash.zero) ∨ (∃ leaf, OnlyLeaf leaves n p leaf ∧
      (canon H leaves n p).hashAt H n = hashNode H.collapsed leaf.laneKey leaf.leafHash) ∨
    (∃ pair ∈ treeNodes H leaves, (canon H leaves n p).hashAt H n = hashNode H.node pair.1 pair.2) := by
  rcases lone_or_branched H leaves sub with ⟨leaf, only, lone⟩ | branched
  · refine .inr (.inl ⟨leaf, only, ?_⟩)
    rw [lone]
    rfl
  · cases n with
    | zero =>
      by_cases absent : leaves p = Hash.zero
      · exact .inl ⟨rfl, absent, by simp [canon, leafResult, absent, NodeResult.hashAt, emptyHashes]⟩
      · exact absurd (by simp [canon, leafResult, absent]) (branched ⟨p, leaves p⟩)
    | succ n =>
      exact .inr (.inr ⟨_, ⟨n, p, sub.fits, sub.position, branched, rfl⟩, hashAt_succ sub.fits branched⟩)

end Hashes

/-! ## Soundness -/

/-- The key and value hashed at the end of the descent, if any. -/
def initialInput (key : Hash) : Option Hash → Option (Hash × Hash)
  | some leafHash => some (key, leafHash)
  | none =>
    match terminal with
    | .collapsedOther _ leaf => if leaf.laneKey ≠ key then some (leaf.laneKey, leaf.leafHash) else none
    | _ => none

theorem initialHash_eq (key : Hash) (leafHash : Option Hash) : initialHash H terminal key leafHash =
      ((initialInput terminal key leafHash).map fun pair => hashNode H.collapsed pair.1 pair.2).getD Hash.zero := by
  unfold initialHash initialInput
  split
  · rfl
  · split
    · split <;> rfl
    · rfl

/-- On the given inputs neither hash collides, they differ from each other, and none is zero. -/
structure CollisionFree (H : SmtHasher) (nodes leaves : Set (Hash × Hash)) : Prop where
  node_inj : ∀ a ∈ nodes, ∀ b ∈ nodes, hashNode H.node a.1 a.2 = hashNode H.node b.1 b.2 → a = b
  leaf_inj : ∀ a ∈ leaves, ∀ b ∈ leaves, hashNode H.collapsed a.1 a.2 = hashNode H.collapsed b.1 b.2 → a = b
  disjoint : ∀ a ∈ nodes, ∀ b ∈ leaves, hashNode H.node a.1 a.2 ≠ hashNode H.collapsed b.1 b.2
  node_ne_zero : ∀ a ∈ nodes, hashNode H.node a.1 a.2 ≠ Hash.zero
  leaf_ne_zero : ∀ a ∈ leaves, hashNode H.collapsed a.1 a.2 ≠ Hash.zero

variable {H}

theorem CollisionFree.mono {nodes nodes' leaves leaves' : Set (Hash × Hash)}
    (free : CollisionFree H nodes leaves) (fewer : nodes' ⊆ nodes) (fewer' : leaves' ⊆ leaves) :
    CollisionFree H nodes' leaves' where
  node_inj a here b there := free.node_inj a (fewer here) b (fewer there)
  leaf_inj a here b there := free.leaf_inj a (fewer' here) b (fewer' there)
  disjoint a here b there := free.disjoint a (fewer here) b (fewer' there)
  node_ne_zero a here := free.node_ne_zero a (fewer here)
  leaf_ne_zero a here := free.leaf_ne_zero a (fewer' here)

variable (H)

/-- Nothing that the tree over `leaves` or the check of a proof hashes collides. -/
def NoCollisions (leaves : LeafMap) (proof : SmtProof) (key : Hash) (leafHash : Option Hash) : Prop :=
  CollisionFree H (treeNodes H leaves ∪ {pair | pair ∈ ascendInputs H proof.bitmap key proof.terminal.depth
      proof.siblings.reverse (initialHash H proof.terminal key leafHash)})
    (treeLeaves leaves ∪ {pair | pair ∈ initialInput proof.terminal key leafHash})

section Soundness

variable {H : SmtHasher} {leaves : LeafMap} {nodes lanes : Set (Hash × Hash)} {key : Hash}

theorem branchInput_inj {d : Nat} {current current' sibling sibling' : Hash}
    (same : branchInput key d current sibling = branchInput key d current' sibling') : current = current' := by
  unfold branchInput at same
  split at same
  · exact congrArg Prod.snd same
  · exact congrArg Prod.fst same

theorem OnlyLeaf.states {n : Nat} {p : Hash} {leaf : CollapsedLeaf} {terminal : ProofTerminal}
    {leafHash : Option Hash} (only : OnlyLeaf leaves n p leaf) (below : Below n p key)
    (input : initialInput terminal key leafHash = some (leaf.laneKey, leaf.leafHash)) :
    leaves key = leafHash.getD Hash.zero ∧ leafHash ≠ some Hash.zero := by
  obtain ⟨-, value, nonzero, others⟩ := only
  cases leafHash with
  | some leafHash =>
    obtain ⟨rfl, rfl⟩ := Prod.mk.inj (Option.some.inj input)
    exact ⟨value, fun zero => nonzero (Option.some.inj zero)⟩
  | none =>
    cases terminal with
    | full => cases input
    | collapsed depth => cases input
    | collapsedOther depth other =>
      rw [initialInput, ite_eq_iff] at input
      obtain ⟨differ, same⟩ | ⟨-, none'⟩ := input
      · obtain ⟨sameKey, -⟩ := Prod.mk.inj (Option.some.inj same)
        exact ⟨others key below fun equal => differ (sameKey.trans equal.symm), by simp⟩
      · cases none'

variable (free : CollisionFree H nodes lanes) (tree : treeNodes H leaves ⊆ nodes) (ends : treeLeaves leaves ⊆ lanes)

include free tree ends

theorem child_of_branch {n : Nat} {q current sibling : Hash} (sub : Subtree (n + 1) q) (d : Nat)
    (checked : branchInput key d current sibling ∈ nodes)
    (parent : hashNode H.node (branchInput key d current sibling).1
      (branchInput key d current sibling).2 = (canon H leaves (n + 1) q).hashAt H (n + 1)) :
    current = (canon H leaves n (child n q (bitAt key d))).hashAt H n := by
  rcases lone_or_branched H leaves sub with ⟨leaf, only, lone⟩ | branched
  · rw [lone, NodeResult.hashAt] at parent
    have apart := free.disjoint _ checked _ (ends only.listed)
    exact absurd parent apart
  · have listed : childHashes H leaves n q ∈ treeNodes H leaves := ⟨n, q, sub.fits, sub.position, branched, rfl⟩
    rw [hashAt_succ sub.fits branched] at parent
    have pairs := free.node_inj _ checked _ (tree listed) parent
    rw [childHashes_of_path key d] at pairs
    exact branchInput_inj pairs

theorem ascend_sound {bitmap : BitVec 256} {d : Nat} {siblings : List Hash} {current : Hash} (inside : d ≤ 256)
    (checked : ∀ pair ∈ ascendInputs H bitmap key d siblings current, pair ∈ nodes)
    (reached : ascend H bitmap key d siblings current = canonRoot H leaves) :
    current = (canon H leaves (256 - d) (firstBits d key)).hashAt H (256 - d) := by
  induction d generalizing siblings current with
  | zero =>
    rw [firstBits_zero, Nat.sub_zero]
    exact reached.trans (canonRoot_eq_hashAt H leaves)
  | succ d ih =>
    obtain ⟨n, height⟩ : ∃ n, 256 - d = n + 1 := ⟨255 - d, by omega⟩
    have fits : n < 256 := by omega
    have depth : 255 - n = d := by omega
    have position : Below (n + 1) (firstBits d key) key := by
      rw [Below, show 256 - (n + 1) = d by omega]
    have chosen := position.choose fits
    rw [depth] at chosen
    have next : firstBits (d + 1) key = child n (firstBits d key) (bitAt key d) := by
      rw [← chosen, show 256 - n = d + 1 by omega]
    simp only [ascendInputs, List.forall_mem_cons] at checked
    have parent := ih (by omega) checked.2 reached
    rw [height] at parent
    rw [show 256 - (d + 1) = n by omega, next]
    exact child_of_branch free tree ends (position.subtree fits) d checked.1 parent

/-- A descent that ends with the hash of the subtree has found what the map has under the key. -/
theorem terminal_sound {terminal : ProofTerminal} {leafHash : Option Hash} {n : Nat} {p : Hash} (fits : n ≤ 256)
    (below : Below n p key) (checked : ∀ pair ∈ initialInput terminal key leafHash, pair ∈ lanes)
    (initial : initialHash H terminal key leafHash = (canon H leaves n p).hashAt H n) :
    leaves key = leafHash.getD Hash.zero ∧ leafHash ≠ some Hash.zero := by
  rw [initialHash_eq] at initial
  have hashed := hashAt_cases H leaves (below.subtree fits)
  cases input : initialInput terminal key leafHash with
  | none =>
    rw [input, Option.map_none, Option.getD_none] at initial
    rcases hashed with ⟨rfl, absent, -⟩ | ⟨leaf, only, hash⟩ | ⟨pair, branch, hash⟩
    · -- the leaf itself, which is absent
      cases leafHash with
      | some leafHash => cases input
      | none =>
        rw [below_zero.mp below]
        exact ⟨absent, by simp⟩
    · have nonzero := free.leaf_ne_zero _ (ends only.listed)
      exact absurd (initial.trans hash).symm nonzero
    · exact absurd (initial.trans hash).symm (free.node_ne_zero pair (tree branch))
  | some found =>
    rw [input, Option.map_some, Option.getD_some] at initial
    rcases hashed with ⟨-, -, zero⟩ | ⟨leaf, only, hash⟩ | ⟨pair, branch, hash⟩
    · exact absurd (initial.trans zero) (free.leaf_ne_zero found (checked found input))
    · -- a single leaf: the one that was hashed
      rw [hash] at initial
      have same := free.leaf_inj found (checked found input) _ (ends only.listed) initial
      exact only.states below (same ▸ input)
    · exact absurd (initial.trans hash).symm (free.disjoint pair (tree branch) found (checked found input))

omit free tree ends

theorem leaf_of_not_lone {p : Hash} (bare : ∀ leaf, canon H leaves 0 p ≠ .collapsed leaf)
    (below : Below 0 p key) : leaves key = Hash.zero := by
  have here : firstBits 256 key = p := below
  rw [firstBits_width] at here
  subst here
  by_contra live
  exact bare ⟨key, leaves key⟩ (by simp [canon, leafResult, live])

/-- The hash of a leaf is that of no subtree but a single leaf. -/
theorem leaf_ne_branch (free : CollisionFree H nodes lanes) (tree : treeNodes H leaves ⊆ nodes) {n : Nat}
    {p : Hash} (sub : Subtree n p) (branched : ∀ leaf, canon H leaves n p ≠ .collapsed leaf) {lane value : Hash}
    (listed : (lane, value) ∈ lanes) : hashNode H.collapsed lane value ≠ (canon H leaves n p).hashAt H n := by
  rcases hashAt_cases H leaves sub with ⟨-, -, zero⟩ | ⟨leaf, only, -⟩ | ⟨node, member, hashed⟩
  · have apart := free.leaf_ne_zero (lane, value) listed
    rw [zero]
    exact apart
  · exact absurd ((canon_eq_collapsed sub).mpr only) (branched leaf)
  · have apart := free.disjoint node (tree member) (lane, value) listed
    rw [hashed]
    exact apart.symm

theorem leaves_eq_of_hashAt {leaves' : LeafMap} (free : CollisionFree H nodes lanes)
    (tree : treeNodes H leaves ⊆ nodes) (tree' : treeNodes H leaves' ⊆ nodes)
    (ends : treeLeaves leaves ⊆ lanes) (ends' : treeLeaves leaves' ⊆ lanes) {n : Nat} {p : Hash} (sub : Subtree n p)
    (same : (canon H leaves n p).hashAt H n = (canon H leaves' n p).hashAt H n) {key : Hash}
    (below : Below n p key) : leaves key = leaves' key := by
  -- Two single leaves, two branches, or one of each, which no hash allows.
  rcases lone_or_branched H leaves sub with ⟨leaf, only, lone⟩ | branched <;>
    rcases lone_or_branched H leaves' sub with ⟨leaf', only', lone'⟩ | branched'
  · rw [lone, lone', NodeResult.hashAt, NodeResult.hashAt] at same
    have pairs := free.leaf_inj _ (ends only.listed) _ (ends' only'.listed) same
    obtain ⟨sameKey, sameHash⟩ := Prod.mk.inj pairs
    by_cases here : key = leaf.laneKey
    · rw [here, only.2.1, sameHash, ← only'.2.1, sameKey]
    · rw [only.2.2.2 key below here, only'.2.2.2 key below (sameKey ▸ here)]
  · rw [lone, NodeResult.hashAt] at same
    have apart := leaf_ne_branch free tree' sub branched' (ends only.listed)
    exact absurd same apart
  · rw [lone', NodeResult.hashAt] at same
    have apart := leaf_ne_branch free tree sub branched (ends' only'.listed)
    exact absurd same.symm apart
  · cases n with
    | zero => rw [leaf_of_not_lone branched below, leaf_of_not_lone branched' below]
    | succ n =>
      rw [hashAt_succ sub.fits branched, hashAt_succ sub.fits branched'] at same
      have pairs := free.node_inj _ (tree ⟨n, p, sub.fits, sub.position, branched, rfl⟩) _
        (tree' ⟨n, p, sub.fits, sub.position, branched', rfl⟩) same
      have chosen := below.choose sub.fits
      refine leaves_eq_of_hashAt free tree tree' ends ends' sub.down ?_ chosen
      cases bitAt key (255 - n) with
      | false => exact congrArg Prod.fst pairs
      | true => exact congrArg Prod.snd pairs

/-- A root belongs to one map only. -/
theorem leaves_eq_of_canonRoot {leaves' : LeafMap}
    (free : CollisionFree H (treeNodes H leaves ∪ treeNodes H leaves') (treeLeaves leaves ∪ treeLeaves leaves'))
    (same : canonRoot H leaves = canonRoot H leaves') : leaves = leaves' := by
  rw [canonRoot_eq_hashAt, canonRoot_eq_hashAt] at same
  funext key
  exact leaves_eq_of_hashAt free Set.subset_union_left Set.subset_union_right Set.subset_union_left
    Set.subset_union_right root_subtree same (below_root key)

/-- If nothing collides, an accepted proof states what the map has under the key. -/
theorem verify_sound {proof : SmtProof} {leafHash : Option Hash} (free : NoCollisions H leaves proof key leafHash)
    (accepted : proof.verify H key leafHash (canonRoot H leaves) = .ok true) :
    leaves key = leafHash.getD Hash.zero ∧ leafHash ≠ some Hash.zero := by
  rw [verify_eq] at accepted
  split at accepted
  · have inside : proof.terminal.depth ≤ 256 := by
      cases proof.terminal with
      | full => exact le_refl _
      | collapsed depth => exact le_of_lt depth.isLt
      | collapsedOther depth leaf => exact le_of_lt depth.isLt
    have reached := beq_iff_eq.mp (Except.ok.inj accepted)
    have initial := ascend_sound free Set.subset_union_left Set.subset_union_left inside
      (fun pair member => Set.mem_union_right _ member) reached
    have below : Below (256 - proof.terminal.depth) (firstBits proof.terminal.depth key) key := by
      rw [Below, Nat.sub_sub_self inside]
    exact terminal_sound free Set.subset_union_left Set.subset_union_left (Nat.sub_le 256 _) below
      (fun pair member => Set.mem_union_right _ member) initial
  · cases accepted

end Soundness

/-! ## Completeness -/

/-- The leaf of a key, if there is one. -/
def LeafMap.get (leaves : LeafMap) (key : Hash) : Option Hash :=
  if leaves key = Hash.zero then none else some (leaves key)

/-- The proof has the siblings it announces and they lead to the root. -/
def SmtProof.Checks (proof : SmtProof) (key : Hash) (leafHash : Option Hash) (root : Hash) : Prop :=
  proof.siblings.length = clearBefore proof.bitmap proof.terminal.depth ∧
    ascend H proof.bitmap key proof.terminal.depth proof.siblings.reverse
      (initialHash H proof.terminal key leafHash) = root

theorem SmtProof.Checks.verify {H : SmtHasher} {proof : SmtProof} {key : Hash} {leafHash : Option Hash}
    {root : Hash} (checks : proof.Checks H key leafHash root) : proof.verify H key leafHash root = .ok true := by
  rw [verify_eq, if_pos checks.1, checks.2, beq_self_eq_true]

section Completeness

variable {H : SmtHasher} {getNode : SmtStore} {leaves : LeafMap} {n : Nat} {p key : Hash}

theorem LeafMap.get_of_absent (absent : leaves key = Hash.zero) : leaves.get key = none := if_pos absent

theorem LeafMap.get_of_present {leafHash : Hash} (value : leaves key = leafHash)
    (nonzero : leafHash ≠ Hash.zero) : leaves.get key = some leafHash := by
  rw [LeafMap.get, value, if_neg nonzero]

section

variable {bitmap : BitVec 256} {d e : Nat} (ordered : d ≤ e) (set : ∀ i, d ≤ i → i < e → isEmptyAtDepth bitmap i)

include ordered set

theorem clearBefore_of_set : clearBefore bitmap e = clearBefore bitmap d := by
  induction e, ordered using Nat.le_induction with
  | base => rfl
  | succ e ordered ih =>
    rw [clearBefore_succ, if_pos (set e ordered (Nat.lt_succ_self e)), Nat.add_zero]
    exact ih fun i deep small => set i deep (Nat.lt_succ_of_lt small)

theorem ascend_of_set (H : SmtHasher) (key : Hash) (inside : e ≤ 256) (siblings : List Hash) :
    ascend H bitmap key e siblings (emptyHashes H (256 - e)) =
      ascend H bitmap key d siblings (emptyHashes H (256 - d)) := by
  induction e, ordered using Nat.le_induction with
  | base => rfl
  | succ e ordered ih =>
    have next : nextSibling H bitmap e siblings = (emptyHashes H (256 - (e + 1)), siblings) := by
      rw [nextSibling, if_pos (set e ordered (Nat.lt_succ_self e)), show 255 - e = 256 - (e + 1) by omega]
    have both : branchInput key e (emptyHashes H (256 - (e + 1))) (emptyHashes H (256 - (e + 1))) =
        (emptyHashes H (256 - (e + 1)), emptyHashes H (256 - (e + 1))) := ite_self _
    have parent : emptyHashes H (256 - e) =
        hashNode H.node (emptyHashes H (256 - (e + 1))) (emptyHashes H (256 - (e + 1))) := by
      rw [show 256 - e = 256 - (e + 1) + 1 by omega]
      rfl
    rw [ascend, next, both, ← parent]
    exact ih (fun i deep small => set i deep (Nat.lt_succ_of_lt small)) (by omega)

end

theorem child_zero_not (below : Below 1 p key) : child 0 p (!bitAt key 255) = twin key := by
  have flipped : bitAt (twin key) 255 = !bitAt key 255 := by
    have last : (1#256).getMsbD 255 = true := by decide
    rw [bitAt, twin, BitVec.getMsbD_xor, last, Bool.xor_true, bitAt]
  have chosen := Below.choose (by decide : 0 < 256) ((below_twin Nat.one_pos).mpr below)
  rw [flipped] at chosen
  exact (below_zero.mp chosen).symm

theorem siblingHash_cases (fits : n < 256) (below : Below (n + 1) p key)
    (holds : ∀ right, Holds H getNode n leaves (child n p right)) :
    (siblingHash H getNode leaves.get key (255 - n) = none ∧
      canon H leaves n (child n p !bitAt key (255 - n)) = .empty) ∨ siblingHash H getNode leaves.get key (255 - n) =
      some ((canon H leaves n (child n p !bitAt key (255 - n))).hashAt H n) := by
  cases n with
  | zero =>
    rw [siblingHash, if_pos rfl, child_zero_not below]
    by_cases absent : leaves (twin key) = Hash.zero
    · simp [LeafMap.get, absent, canon, leafResult]
    · simp [LeafMap.get, absent, canon, leafResult, NodeResult.hashAt]
  | succ m =>
    have node := (holds !bitAt key (255 - (m + 1))).1
    have inner : ¬ 255 - (m + 1) = 255 := by omega
    rw [siblingHash, if_neg inner, branchKey_succ below, childBranchKey_eq fits, depth_succ, node]
    cases canon H leaves (m + 1) (child (m + 1) p !bitAt key (255 - (m + 1))) with
    | empty => exact .inl ⟨rfl, rfl⟩
    | collapsed leaf => exact .inr rfl
    | internal hash => exact .inr rfl

theorem ascend_level {bitmap : BitVec 256} {siblings rest : List Hash} (fits : n < 256)
    (branched : ∀ leaf, canon H leaves (n + 1) p ≠ .collapsed leaf) (next : nextSibling H bitmap (255 - n) siblings =
      ((canon H leaves n (child n p !bitAt key (255 - n))).hashAt H n, rest)) : ascend H bitmap key (256 - n) siblings
        ((canon H leaves n (child n p (bitAt key (255 - n)))).hashAt H n) =
      ascend H bitmap key (255 - n) rest ((canon H leaves (n + 1) p).hashAt H (n + 1)) := by
  rw [show 256 - n = 255 - n + 1 by omega, ascend, next, hashAt_succ fits branched, childHashes_of_path key (255 - n)]

section Endings

variable {bitmap : BitVec 256} {siblings : List Hash} {root : Hash}

private theorem checks_bottom (count : siblings.length = clearBefore bitmap 256)
    (climbs : ascend H bitmap key 256 siblings.reverse ((canon H leaves 0 key).hashAt H 0) = root) :
    SmtProof.Checks H ⟨bitmap, siblings, .full⟩ key (leaves.get key) root := by
  have initial : initialHash H .full key (leaves.get key) = (canon H leaves 0 key).hashAt H 0 := by
    by_cases absent : leaves key = Hash.zero
    · simp [LeafMap.get, absent, canon, leafResult, initialHash, NodeResult.hashAt, emptyHashes]
    · simp [LeafMap.get, absent, canon, leafResult, initialHash, NodeResult.hashAt]
  rw [← initial] at climbs
  exact ⟨count, climbs⟩

private theorem checks_empty (fits : n ≤ 256) (below : Below n p key)
    (bare : canon H leaves n p = .empty) (count : siblings.length = clearBefore bitmap (256 - n))
    (climbs : ascend H bitmap key (256 - n) siblings.reverse ((canon H leaves n p).hashAt H n) = root) :
    SmtProof.Checks H ⟨setLast bitmap n, siblings, .full⟩ key (leaves.get key) root := by
  have absent := (canon_eq_empty ⟨fits, below.self⟩).mp bare key below
  have set : ∀ i, 256 - n ≤ i → i < 256 → isEmptyAtDepth (setLast bitmap n) i := by
    intro i deep small
    simp [isEmptyAtDepth_setLast fits, deep, small]
  have above : ∀ i < 256 - n, isEmptyAtDepth bitmap i = isEmptyAtDepth (setLast bitmap n) i := by
    intro i early
    simp [isEmptyAtDepth_setLast fits, not_le.mpr early]
  have bottom := ascend_of_set (Nat.sub_le 256 n) set H key (le_refl _) siblings.reverse
  constructor
  · exact (count.trans (clearBefore_congr above)).trans (clearBefore_of_set (Nat.sub_le 256 n) set).symm
  · rw [LeafMap.get_of_absent absent]
    rw [bare, NodeResult.hashAt, ascend_congr H key above] at climbs
    rw [Nat.sub_self, Nat.sub_sub_self fits, climbs] at bottom
    exact bottom

private theorem checks_collapsed {leaf : CollapsedLeaf} (fits : n < 256) (below : Below (n + 1) p key)
    (lone : canon H leaves (n + 1) p = .collapsed leaf)
    (count : siblings.length = clearBefore bitmap (255 - n))
    (climbs : ascend H bitmap key (255 - n) siblings.reverse
      ((canon H leaves (n + 1) p).hashAt H (n + 1)) = root) (small : 255 - n < 256) :
    SmtProof.Checks H ⟨setLast bitmap (n + 1), siblings,
      if leaf.laneKey = key then .collapsed ⟨255 - n, small⟩ else .collapsedOther ⟨255 - n, small⟩ leaf⟩
      key (leaves.get key) root := by
  obtain ⟨-, value, nonzero, others⟩ := (canon_eq_collapsed ⟨fits, below.self⟩).mp lone
  have above : ∀ i < 255 - n, isEmptyAtDepth bitmap i = isEmptyAtDepth (setLast bitmap (n + 1)) i := by
    intro i early
    have outside : ¬ (256 - (n + 1) ≤ i ∧ i < 256) := by omega
    rw [isEmptyAtDepth_setLast (Nat.succ_le_of_lt fits), decide_eq_false outside, Bool.or_false]
  rw [lone, NodeResult.hashAt, ascend_congr H key above] at climbs
  rw [clearBefore_congr above] at count
  by_cases same : leaf.laneKey = key
  · rw [if_pos same]
    refine ⟨count, ?_⟩
    rw [LeafMap.get_of_present (same ▸ value) nonzero, ← climbs, same]
    rfl
  · rw [if_neg same]
    refine ⟨count, ?_⟩
    rw [LeafMap.get_of_absent (others key below (Ne.symm same)), ← climbs]
    congr 1
    simp [initialHash, same]

end Endings

/-- The descent keeps the siblings above in step with the tree. -/
theorem proveFrom_checks {bitmap : BitVec 256} {siblings : List Hash} {root : Hash} (fits : n ≤ 256)
    (below : Below n p key) (holds : Holds H getNode n leaves p)
    (fresh : ∀ i, 256 - n ≤ i → isEmptyAtDepth bitmap i = false)
    (count : siblings.length = clearBefore bitmap (256 - n))
    (climbs : ascend H bitmap key (256 - n) siblings.reverse ((canon H leaves n p).hashAt H n) = root) :
    (proveFrom H getNode leaves.get key n bitmap siblings).Checks H key (leaves.get key) root := by
  induction n generalizing p bitmap siblings with
  | zero =>
    obtain rfl := below_zero.mp below
    exact checks_bottom count climbs
  | succ n ih =>
    rw [proveFrom, branchKey_succ below, holds.1]
    cases result : canon H leaves (n + 1) p with
    | empty => exact checks_empty fits below result count climbs
    | collapsed leaf =>
      rw [depth_succ] at count climbs
      exact checks_collapsed fits below result count climbs _
    | internal hash =>
      rw [depth_succ] at fresh count climbs
      have carries : ∀ right, Holds H getNode n leaves (child n p right) := by
        intro right
        have inner := holds.2 right
        rwa [carried_of_internal result] at inner
      have branched : ∀ leaf, canon H leaves (n + 1) p ≠ .collapsed leaf := by simp [result]
      have chosen := below.choose fits
      have deeper : 256 - n = 255 - n + 1 := by omega
      simp only [NodeResult.node]
      rcases siblingHash_cases fits below carries with ⟨missing, bare⟩ | found
      · -- an empty sibling: its bit is set
        have set := isEmptyAtDepth_setBit bitmap (by omega : 255 - n < 256)
        have above : ∀ i < 255 - n, isEmptyAtDepth bitmap i = isEmptyAtDepth (setBit bitmap (255 - n)) i := by
          intro i early
          simp [set, Nat.ne_of_lt early]
        have marked : isEmptyAtDepth (setBit bitmap (255 - n)) (255 - n) := by simp [set]
        have next : nextSibling H (setBit bitmap (255 - n)) (255 - n) siblings.reverse =
            ((canon H leaves n (child n p !bitAt key (255 - n))).hashAt H n, siblings.reverse) := by
          rw [nextSibling, if_pos marked, bare, NodeResult.hashAt, show 255 - (255 - n) = n by omega]
        rw [missing]
        refine ih (by omega) chosen (carries _) (fun i deep => ?_) ?_ ?_
        · rw [set, fresh i (by omega), decide_eq_false (by omega : ¬ i = 255 - n), Bool.or_false]
        · rw [deeper, clearBefore_succ, if_pos marked, Nat.add_zero, ← clearBefore_congr above, count]
        · rw [ascend_level fits branched next, ← ascend_congr H key above, climbs]
      · -- any other sibling is listed
        have unmarked : ¬ isEmptyAtDepth bitmap (255 - n) := by simp [fresh (255 - n) (le_refl _)]
        have next : ∀ hash, nextSibling H bitmap (255 - n) (siblings ++ [hash]).reverse = (hash, siblings.reverse) := by
          intro hash
          rw [nextSibling, if_neg unmarked, List.reverse_append]
          rfl
        rw [found]
        refine ih (by omega) chosen (carries _) (fun i deep => fresh i (by omega)) ?_ ?_
        · rw [List.length_append, deeper, clearBefore_succ, if_neg unmarked, count]
          rfl
        · rw [ascend_level fits branched (next _), climbs]

/-- The proof made from the nodes of a leaf map is accepted with what the map has under the key. -/
theorem prove_complete (represents : Represents H getNode leaves) (key : Hash) :
    (prove H getNode leaves.get key).verify H key (leaves.get key) (canonRoot H leaves) = .ok true := by
  refine (proveFrom_checks (le_refl _) (below_root key) represents ?_ ?_ ?_).verify
  · simp [isEmptyAtDepth]
  · rfl
  · exact (canonRoot_eq_hashAt H leaves).symm

end Completeness

end Marigold.Smt
