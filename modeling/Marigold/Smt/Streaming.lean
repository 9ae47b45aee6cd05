import Marigold.Smt.Exact

/-!
# The streaming builder

`StreamingSmtBuilder` of `crypto/smt`: leaves in ascending order of their keys, one at a time. A stack
holds the finished left siblings on the path of the current leaf; a new leaf seals what lies to the
left of the place where its key leaves the path of the previous one. The sink writes the nodes, as
`NotePoolMergeSink` does.
-/

namespace Marigold.Smt

open Lib Lib.Bits

inductive StreamError where
  | unsortedKey
  | duplicateKey
  | alreadyFinalized
  | notFinalized
  deriving DecidableEq, Repr

inductive EntryKind where
  | collapsed (leaf : CollapsedLeaf)
  | internal
  deriving DecidableEq, Repr

structure StackEntry where
  depth : Nat
  hash : Hash
  representativeKey : Hash
  kind : EntryKind
  deriving DecidableEq, Repr

/-- The nodes written so far, in order. -/
abbrev Writes := List (BranchKey × Node)

/-- The top of the stack comes first. -/
structure StreamingSmtBuilder where
  stack : List StackEntry
  current : Option StackEntry
  remaining : Nat
  root : Option Hash
  rootWritten : Bool
  sink : Writes
  deriving DecidableEq, Repr

/-! ## The sink -/

/-- The put of a child that is a single leaf. -/
def ChildInfo.puts (entry : StackEntry) (childDepth : Nat) : Writes :=
  match entry.kind with
  | .collapsed leaf => [(.new childDepth entry.representativeKey, .collapsed leaf)]
  | .internal => []

/-- `merge`: the collapsed children, then the parent. -/
def MergeSink.merge (H : SmtHasher) (sink : Writes) (left right : Hash) (parentKey : BranchKey)
    (childPuts : Writes) : Hash × Writes :=
  let parentHash := hashNode H.node left right
  (parentHash, sink ++ childPuts ++ [(parentKey, .internal parentHash)])

/-- `merge_chain_with_empty` over `count` levels, the last of them `toDepth`. -/
def MergeSink.mergeChainWithEmpty (H : SmtHasher) (representativeKey : Hash) (toDepth : Nat) :
    Nat → Hash → Writes → Hash × Writes
  | 0, hash, sink => (hash, sink)
  | count + 1, hash, sink =>
    let d := toDepth + count
    let empty := emptyHashes H (255 - d)
    let hash := if bitAt representativeKey d then hashNode H.node empty hash
      else hashNode H.node hash empty
    mergeChainWithEmpty H representativeKey toDepth count hash (sink ++ [(.new d representativeKey, .internal hash)])

/-! ## The builder -/

/-- The first bit in which two keys differ, 256 for equal keys. -/
def divergenceDepth (a b : Hash) : Nat :=
  ((List.range 256).find? fun d => bitAt a d != bitAt b d).getD 256

/-- An internal entry is hashed up to the child of `targetDepth`. -/
def chainUp (H : SmtHasher) (current : StackEntry) (sink : Writes) (targetDepth : Nat) : StackEntry × Writes :=
  if current.depth ≤ targetDepth then (current, sink)
  else match current.kind with
    | .collapsed _ => ({ current with depth := targetDepth }, sink)
    | .internal =>
      let chainTo := targetDepth + 1
      let chained := if current.depth > chainTo then
          MergeSink.mergeChainWithEmpty H current.representativeKey chainTo (current.depth - chainTo) current.hash sink
        else (current.hash, sink)
      ({ current with depth := targetDepth, hash := chained.1 }, chained.2)

/-- Above the leaves the children that are single leaves are written with their parent. -/
def mergePair (H : SmtHasher) (current left : StackEntry) (sink : Writes) : StackEntry × Writes :=
  let mergeDepth := left.depth
  let childPuts := if mergeDepth < 255 then
      ChildInfo.puts left (mergeDepth + 1) ++ ChildInfo.puts current (mergeDepth + 1)
    else []
  let merged := MergeSink.merge H sink left.hash current.hash (.new mergeDepth left.representativeKey) childPuts
  (⟨mergeDepth, merged.1, left.representativeKey, .internal⟩, merged.2)

/-- What the sealing of an entry leaves: the entry, the rest of the stack, the sink and whether the
node of the root has been written. -/
structure Sealing where
  current : StackEntry
  stack : List StackEntry
  sink : Writes
  rootWritten : Bool
  deriving DecidableEq, Repr

def sealUpTo (H : SmtHasher) (targetDepth : Nat) : List StackEntry → StackEntry → Writes → Bool → Sealing
  | [], current, sink, rootWritten =>
    let chained := chainUp H current sink targetDepth
    ⟨chained.1, [], chained.2, rootWritten⟩
  | top :: rest, current, sink, rootWritten =>
    if targetDepth ≤ top.depth then
      let chained := chainUp H current sink top.depth
      let merged := mergePair H chained.1 top chained.2
      sealUpTo H targetDepth rest merged.1 merged.2 (rootWritten || top.depth == 0)
    else
      let chained := chainUp H current sink targetDepth
      ⟨chained.1, top :: rest, chained.2, rootWritten⟩

/-- The entry of a new leaf. -/
def leafEntry (H : SmtHasher) (leaf : CollapsedLeaf) : StackEntry :=
  ⟨256, hashNode H.collapsed leaf.laneKey leaf.leafHash, leaf.laneKey, .collapsed leaf⟩

namespace StreamingSmtBuilder

def new (H : SmtHasher) (totalCount : Nat) : StreamingSmtBuilder where
  stack := []
  current := none
  remaining := totalCount
  root := if totalCount = 0 then some (emptyRoot H) else none
  rootWritten := false
  sink := []

/-- The root, once the last leaf is in. -/
def finalize (H : SmtHasher) (builder : StreamingSmtBuilder) : StreamingSmtBuilder :=
  match builder.current with
  | none => { builder with root := some (emptyRoot H) }
  | some current =>
    let done := sealUpTo H 0 builder.stack current builder.sink builder.rootWritten
    let builder := { builder with
      stack := done.stack, current := none, sink := done.sink, rootWritten := done.rootWritten }
    match done.current.kind with
    | .collapsed leaf =>
      { builder with
        sink := builder.sink ++ [(.new 0 done.current.representativeKey, .collapsed leaf)]
        root := some (hashNode H.collapsed leaf.laneKey leaf.leafHash) }
    | .internal =>
      if done.rootWritten then { builder with root := some done.current.hash }
      else
        let chained := MergeSink.mergeChainWithEmpty H done.current.representativeKey 0 1 done.current.hash builder.sink
        { builder with sink := chained.2, root := some chained.1 }

/-- Sealing the previous leaf up to where the new key leaves its path, and pushing it. -/
def sealPrevious (H : SmtHasher) (builder : StreamingSmtBuilder) (prev : StackEntry) (laneKey : Hash) :
    StreamingSmtBuilder :=
  let done := sealUpTo H (divergenceDepth prev.representativeKey laneKey) builder.stack prev
    builder.sink builder.rootWritten
  { builder with
    stack := done.current :: done.stack, sink := done.sink, rootWritten := done.rootWritten }

/-- The new leaf becomes the current one; the last leaf finalizes. -/
def accept (H : SmtHasher) (builder : StreamingSmtBuilder) (leaf : CollapsedLeaf) :
    StreamingSmtBuilder :=
  let builder := { builder with
    remaining := builder.remaining - 1, current := some (leafEntry H leaf) }
  if builder.remaining = 0 then builder.finalize H else builder

def feed (H : SmtHasher) (builder : StreamingSmtBuilder) (leaf : CollapsedLeaf) :
    Except StreamError StreamingSmtBuilder :=
  if builder.root.isSome then .error .alreadyFinalized
  else match builder.current with
    | some prev =>
      if leaf.laneKey ≤ prev.representativeKey then
        .error (if leaf.laneKey = prev.representativeKey then .duplicateKey else .unsortedKey)
      else .ok ((builder.sealPrevious H prev leaf.laneKey).accept H leaf)
    | none => .ok (builder.accept H leaf)

def finish (builder : StreamingSmtBuilder) : Except StreamError (Hash × Writes) :=
  match builder.root with
  | some root => .ok (root, builder.sink)
  | none => .error .notFinalized

end StreamingSmtBuilder

/-- Leaves fed until one is refused: the error, the builder, and how many leaves were taken from the
stream. -/
def feedAll (H : SmtHasher) : StreamingSmtBuilder → List CollapsedLeaf → Option StreamError × StreamingSmtBuilder × Nat
  | builder, [] => (none, builder, 0)
  | builder, leaf :: rest =>
    match builder.feed H leaf with
    | .error error => (some error, builder, 1)
    | .ok next =>
      let (error, last, pulled) := feedAll H next rest
      (error, last, pulled + 1)

theorem foldlM_feed_eq_feedAll (H : SmtHasher) (builder : StreamingSmtBuilder) (leaves : List CollapsedLeaf) :
    leaves.foldlM (StreamingSmtBuilder.feed H) builder =
      match (feedAll H builder leaves).1 with
      | some error => .error error
      | none => .ok (feedAll H builder leaves).2.1 := by
  induction leaves generalizing builder with
  | nil => rfl
  | cons leaf rest ih =>
    rw [List.foldlM_cons, feedAll]
    cases builder.feed H leaf with
    | error error => rfl
    | ok next => exact ih next

/-- `rebuild_from_sorted_leaves`: all leaves fed to a new builder. -/
def rebuildFromSortedLeaves (H : SmtHasher) (expectedCount : Nat) (leaves : List CollapsedLeaf) :
    Except StreamError (Hash × Writes) := do
  let builder ← leaves.foldlM (StreamingSmtBuilder.feed H) (.new H expectedCount)
  builder.finish

/-! ## Finished subtrees -/

section Subtrees

variable {H : SmtHasher} {leaves : LeafMap} {n : Nat} {p : Hash} {entry : StackEntry} {writes : Writes}
  {hash key : Hash} {m depth : Nat} {kind : EntryKind}

/-- The writes are the nodes of the subtree, each of them once. -/
structure Wrote (H : SmtHasher) (leaves : LeafMap) (n : Nat) (p : Hash) (writes : Writes) : Prop where
  once : (writes.map Prod.fst).Nodup
  nodes : ∀ key node, (key, node) ∈ writes ↔ NodeAt H leaves n p key node

/-- What has been computed and written for a subtree; a single leaf is written later. -/
inductive Finished (H : SmtHasher) (leaves : LeafMap) (n : Nat) (p : Hash) : EntryKind → Hash → Writes → Prop
  | leaf {leaf : CollapsedLeaf} (lone : canon H leaves n p = .collapsed leaf) :
    Finished H leaves n p (.collapsed leaf) (hashNode H.collapsed leaf.laneKey leaf.leafHash) []
  | branch {hash : Hash} {writes : Writes} (branched : canon H leaves n p = .internal hash)
    (wrote : Wrote H leaves n p writes) : Finished H leaves n p .internal hash writes

/-- An entry that waits at its parent for the right sibling, or is about to be merged with the left
one. -/
structure Sealed (H : SmtHasher) (leaves : LeafMap) (n : Nat) (p : Hash) (entry : StackEntry)
    (writes : Writes) : Prop where
  depth : entry.depth = 255 - n
  below : Below n p entry.representativeKey
  finished : Finished H leaves n p entry.kind entry.hash writes

/-- An entry with all the leaves of the subtree, at the place where they first branch. -/
inductive Topped (H : SmtHasher) (leaves : LeafMap) (n : Nat) (p : Hash) : StackEntry → Writes → Prop
  | leaf {leaf : CollapsedLeaf} (lone : canon H leaves n p = .collapsed leaf) :
    Topped H leaves n p (leafEntry H leaf) []
  | branch {m : Nat} {key hash : Hash} {writes : Writes} (lower : m < n) (below : Below n p key)
    (all : ∀ k, Below n p k → leaves k ≠ Hash.zero → firstBits (255 - m) k = firstBits (255 - m) key)
    (branched : canon H leaves (m + 1) (firstBits (255 - m) key) = .internal hash)
    (wrote : Wrote H leaves (m + 1) (firstBits (255 - m) key) writes) :
    Topped H leaves n p ⟨255 - m, hash, key, .internal⟩ writes

theorem Topped.depth_le (fits : n ≤ 256) (topped : Topped H leaves n p entry writes) : 256 - n ≤ entry.depth := by
  cases topped with
  | leaf lone => exact Nat.sub_le 256 n
  | branch lower below all branched wrote => simp only; omega

theorem wrote_of_empty (bare : canon H leaves n p = .empty) : Wrote H leaves n p [] :=
  ⟨List.nodup_nil, fun _ _ => iff_of_false List.not_mem_nil (not_nodeAt_of_empty bare)⟩

theorem wrote_succ {left right total : Writes} (sub : Subtree (n + 1) p)
    (branched : canon H leaves (n + 1) p = .internal hash) (leftWrote : Wrote H leaves n (child n p false) left)
    (rightWrote : Wrote H leaves n (child n p true) right)
    (perm : total.Perm (left ++ right ++ [(⟨255 - n, p⟩, .internal hash)])) : Wrote H leaves (n + 1) p total := by
  have leftIn : ∀ entry ∈ left, InTree n (child n p false) entry.1 := fun entry member =>
    ((leftWrote.nodes _ _).mp member).inTree sub.down
  have rightIn : ∀ entry ∈ right, InTree n (child n p true) entry.1 := fun entry member =>
    ((rightWrote.nodes _ _).mp member).inTree sub.down
  constructor
  · rw [(perm.map Prod.fst).nodup_iff, List.map_append, List.map_append, List.nodup_append, List.nodup_append]
    refine ⟨⟨leftWrote.once, rightWrote.once, ?_⟩, List.nodup_singleton _, ?_⟩
    · rintro _ inLeft _ inRight rfl
      obtain ⟨a, memberA, rfl⟩ := List.mem_map.mp inLeft
      obtain ⟨b, memberB, same⟩ := List.mem_map.mp inRight
      exact (leftIn a memberA).disjoint sub (same ▸ rightIn b memberB)
    · rintro _ inside _ top rfl
      obtain rfl := List.mem_singleton.mp top
      rcases List.mem_append.mp inside with inLeft | inRight
      · obtain ⟨a, memberA, same⟩ := List.mem_map.mp inLeft
        exact (leftIn a memberA).ne_top sub.fits same
      · obtain ⟨b, memberB, same⟩ := List.mem_map.mp inRight
        exact (rightIn b memberB).ne_top sub.fits same
  · intro key node
    rw [perm.mem_iff, List.mem_append, List.mem_append, leftWrote.nodes, rightWrote.nodes,
      List.mem_singleton, NodeAt, branched]
    simp only [NodeResult.node, Option.some.injEq, Prod.mk.injEq, NodeResult.internal.injEq,
      exists_eq_left', Bool.exists_bool]
    constructor
    · rintro ((inLeft | inRight) | ⟨rfl, rfl⟩)
      · exact .inr (.inl inLeft)
      · exact .inr (.inr inRight)
      · exact .inl ⟨rfl, rfl⟩
    · rintro (⟨rfl, rfl⟩ | inLeft | inRight)
      · exact .inr ⟨rfl, rfl⟩
      · exact .inl (.inl inLeft)
      · exact .inl (.inr inRight)

private theorem branch_up {d : Nat} (level : d + n = 255)
    (finished : Finished H leaves n (firstBits (d + 1) key) .internal hash writes)
    (alone : ∀ k, firstBits d k = firstBits d key → leaves k ≠ Hash.zero →
      firstBits (d + 1) k = firstBits (d + 1) key) (hash' : Hash)
    (computed : hash' = if bitAt key d then hashNode H.node (emptyHashes H (255 - d)) hash
      else hashNode H.node hash (emptyHashes H (255 - d))) :
    Finished H leaves (n + 1) (firstBits d key) .internal hash' (writes ++ [(.new d key, .internal hash')]) := by
  obtain _ | ⟨branched, wrote⟩ := finished
  obtain rfl : d = 255 - n := by omega
  have deeper : 255 - n + 1 = 256 - n := by omega
  have here : Below (n + 1) (firstBits (255 - n) key) key := by rw [Below, depth_succ]
  have sub := here.subtree (by omega)
  have mine : firstBits (255 - n + 1) key = child n (firstBits (255 - n) key) (bitAt key (255 - n)) := by
    rw [deeper]
    exact here.choose (by omega)
  have other : canon H leaves n (child n (firstBits (255 - n) key) !bitAt key (255 - n)) = .empty := by
    refine (canon_eq_empty sub.down).mpr fun k below => ?_
    by_contra there
    have above := below.parent sub
    rw [Below, depth_succ] at above
    have side := alone k above there
    rw [mine, deeper] at side
    exact below_children_disjoint sub side below
  rw [mine] at branched wrote
  cases bit : bitAt key (255 - n) with
  | false =>
    rw [bit] at branched wrote other computed
    simp only [Bool.not_false] at other
    have result : canon H leaves (n + 1) (firstBits (255 - n) key) = .internal hash' := by
      rw [canon_succ, branched, other, computed]
      rfl
    refine .branch result (wrote_succ sub result wrote (wrote_of_empty other) ?_)
    rw [List.append_nil]
    exact .refl _
  | true =>
    rw [bit] at branched wrote other computed
    simp only [Bool.not_true] at other
    have result : canon H leaves (n + 1) (firstBits (255 - n) key) = .internal hash' := by
      rw [canon_succ, branched, other, computed]
      rfl
    exact .branch result (wrote_succ sub result (wrote_of_empty other) wrote (.refl _))

theorem mergeChainWithEmpty_spec {toDepth count : Nat} (sink : Writes) (reach : toDepth + count + n = 256)
    (finished : Finished H leaves n (firstBits (toDepth + count) key) .internal hash writes)
    (alone : ∀ k, firstBits toDepth k = firstBits toDepth key → leaves k ≠ Hash.zero →
      firstBits (toDepth + count) k = firstBits (toDepth + count) key) :
    ∃ hash' writes', MergeSink.mergeChainWithEmpty H key toDepth count hash (sink ++ writes) = (hash', sink ++ writes') ∧
      Finished H leaves (256 - toDepth) (firstBits toDepth key) .internal hash' writes' := by
  induction count generalizing n hash writes with
  | zero =>
    obtain rfl : 256 - toDepth = n := by omega
    exact ⟨hash, writes, rfl, finished⟩
  | succ count ih =>
    have up := branch_up (d := toDepth + count) (by omega) finished
      (fun k same there => alone k (firstBits_mono (by omega) same) there) _ rfl
    obtain ⟨hash', writes', run, result⟩ := ih (by omega) up
      fun k same there => firstBits_mono (by omega) (alone k same there)
    refine ⟨hash', writes', ?_, result⟩
    rw [MergeSink.mergeChainWithEmpty, ← run, ← List.append_assoc]

theorem chainUp_sealed (sink : Writes) (fits : n < 256) (sub : Subtree n p)
    (topped : Topped H leaves n p entry writes) :
    ∃ entry' writes', chainUp H entry (sink ++ writes) (255 - n) = (entry', sink ++ writes') ∧
      Sealed H leaves n p entry' writes' := by
  cases topped with
  | @leaf leaf lone =>
    have below := ((canon_eq_collapsed sub).mp lone).1
    refine ⟨{ leafEntry H leaf with depth := 255 - n }, [], ?_, ⟨rfl, below, .leaf lone⟩⟩
    rw [chainUp, if_neg (by simp only [leafEntry]; omega)]
    rfl
  | @branch m key hash _ lower below all branched wrote =>
    have reach : 255 - m = 256 - n + (n - (m + 1)) := by omega
    have finished := Finished.branch branched wrote
    rw [reach] at finished all
    obtain ⟨hash', writes', run, finished⟩ := mergeChainWithEmpty_spec sink (by omega) finished
      fun k same there => all k (same.trans below) there
    rw [below, Nat.sub_sub_self (by omega)] at finished
    refine ⟨⟨255 - n, hash', key, .internal⟩, writes', ?_, ⟨rfl, below, finished⟩⟩
    rw [chainUp, if_neg (by simp only; omega)]
    simp only [show 255 - n + 1 = 256 - n by omega,
      show 255 - m - (256 - n) = n - (m + 1) by omega]
    rcases Nat.eq_or_lt_of_le (Nat.succ_le_of_lt lower) with adjacent | apart
    · -- the branch is the subtree itself: nothing to hash
      subst adjacent
      rw [if_neg (by omega)]
      simpa [MergeSink.mergeChainWithEmpty] using run
    · rw [if_pos (by omega), run]

theorem mergedNode_of_present {left right : NodeResult} (someLeft : left ≠ .empty) (someRight : right ≠ .empty) :
    mergedNode H left right depth = .internal (hashNode H.node (left.hash H depth) (right.hash H depth)) := by
  cases left <;> cases right <;> first | rfl | contradiction

theorem Finished.present (finished : Finished H leaves n p kind hash writes) : canon H leaves n p ≠ .empty := by
  cases finished with
  | leaf lone => simp [lone]
  | branch branched _ => simp [branched]

theorem Finished.hash_eq (finished : Finished H leaves n p kind hash writes) :
    (canon H leaves n p).hash H depth = hash := by
  cases finished with
  | leaf lone => rw [lone, NodeResult.hash]
  | branch branched _ => rw [branched, NodeResult.hash]

theorem chainUp_same (H : SmtHasher) (entry : StackEntry) (sink : Writes) (targetDepth : Nat) :
    (chainUp H entry sink targetDepth).1.kind = entry.kind ∧
      (chainUp H entry sink targetDepth).1.representativeKey = entry.representativeKey := by
  unfold chainUp
  split
  · exact ⟨rfl, rfl⟩
  · split <;> exact ⟨by assumption ▸ rfl, rfl⟩

private theorem Sealed.wrote_puts (fits : n < 256) (sealed : Sealed H leaves n p entry writes) :
    Wrote H leaves n p (writes ++ if 255 - n < 255 then ChildInfo.puts entry (255 - n + 1) else []) := by
  obtain ⟨depth, hash, key, kind⟩ := entry
  obtain ⟨-, below, finished⟩ := sealed
  cases finished with
  | @leaf leaf lone =>
    cases n with
    | zero => exact ⟨List.nodup_nil, fun _ _ => iff_of_false List.not_mem_nil id⟩
    | succ n =>
      rw [if_pos (by omega)]
      refine ⟨List.nodup_singleton _, fun k node => ?_⟩
      have top : BranchKey.new (255 - (n + 1) + 1) key = ⟨255 - n, p⟩ := by
        rw [show 255 - (n + 1) + 1 = 256 - (n + 1) by omega, branchKey_of_below below, depth_succ]
      rw [ChildInfo.puts, top, List.nil_append, List.mem_singleton, Prod.mk.injEq, nodeAt_of_collapsed lone]
  | branch branched wrote =>
    simpa [ChildInfo.puts] using wrote

theorem mergePair_topped {left right : StackEntry} {leftWrites rightWrites : Writes} (sink : Writes)
    (sub : Subtree (n + 1) p) (leftSealed : Sealed H leaves n (child n p false) left leftWrites)
    (rightSealed : Sealed H leaves n (child n p true) right rightWrites) :
    ∃ entry writes, mergePair H right left (sink ++ (leftWrites ++ rightWrites)) =
        (entry, sink ++ writes) ∧ entry.depth = 255 - n ∧ Topped H leaves (n + 1) p entry writes := by
  have below := leftSealed.below.parent sub
  have here : firstBits (255 - n) left.representativeKey = p := by rwa [Below, depth_succ] at below
  have result : canon H leaves (n + 1) p = .internal (hashNode H.node left.hash right.hash) := by
    rw [canon_succ, mergedNode_of_present leftSealed.finished.present rightSealed.finished.present,
      leftSealed.finished.hash_eq, rightSealed.finished.hash_eq]
  -- the children are written left before right, the puts of both after the nodes of both
  have wrote : Wrote H leaves (n + 1) p (leftWrites ++ rightWrites ++ (if 255 - n < 255 then
        ChildInfo.puts left (255 - n + 1) ++ ChildInfo.puts right (255 - n + 1) else []) ++
      [(⟨255 - n, p⟩, .internal (hashNode H.node left.hash right.hash))]) := by
    refine wrote_succ sub result (leftSealed.wrote_puts sub.fits) (rightSealed.wrote_puts sub.fits)
      (List.Perm.append_right _ ?_)
    split
    · rw [List.append_assoc, List.append_assoc]
      refine List.Perm.append_left _ ?_
      rw [← List.append_assoc, ← List.append_assoc]
      exact List.perm_append_comm.append_right _
    · simp
  have all : ∀ k, Below (n + 1) p k → leaves k ≠ Hash.zero →
      firstBits (255 - n) k = firstBits (255 - n) left.representativeKey := by
    intro k there _
    rw [here, ← depth_succ]
    exact there
  rw [← here] at result wrote
  refine ⟨_, _, ?_, rfl, .branch (Nat.lt_succ_self n) below all result wrote⟩
  simp only [mergePair, MergeSink.merge, leftSealed.depth, List.append_assoc]
  rfl

end Subtrees

/-! ## A run of leaves -/

theorem divergenceDepth_eq {a b : Hash} {d : Nat} (small : d < 256)
    (same : firstBits d a = firstBits d b) (differ : bitAt a d ≠ bitAt b d) : divergenceDepth a b = d := by
  have found : ((List.range 256).find? fun d => bitAt a d != bitAt b d) = some d := by
    rw [List.find?_range_eq_some]
    refine ⟨by simpa using differ, List.mem_range.mpr small, fun i early => ?_⟩
    have bits : bitAt a i = bitAt b i := firstBits_eq_iff.mp same i early
    simp [bits]
  rw [divergenceDepth, found]
  rfl

/-- The entries of `stack` merged into the current one, from the top. -/
def drain (H : SmtHasher) : List StackEntry → StackEntry → Writes → Bool → StackEntry × Writes × Bool
  | [], current, sink, rootWritten => (current, sink, rootWritten)
  | top :: rest, current, sink, rootWritten =>
    let chained := chainUp H current sink top.depth
    let merged := mergePair H chained.1 top chained.2
    drain H rest merged.1 merged.2 (rootWritten || top.depth == 0)

variable {stack : List StackEntry} {H : SmtHasher} {current : StackEntry} {sink : Writes} {rootWritten : Bool}
  {drained : StackEntry × Writes × Bool}

theorem drain_append (run : drain H stack current sink rootWritten = drained) (below : List StackEntry) :
    drain H (stack ++ below) current sink rootWritten = drain H below drained.1 drained.2.1 drained.2.2 := by
  subst run
  induction stack generalizing current sink rootWritten with
  | nil => rfl
  | cons top rest ih =>
    rw [List.cons_append, drain, drain]
    exact ih ..

/-- Sealing drains the entries at or below the target and stops at the first one above it. -/
theorem sealUpTo_append {targetDepth : Nat} {below : List StackEntry} (deep : ∀ e ∈ stack, targetDepth ≤ e.depth)
    (shallow : ∀ e ∈ below.head?, e.depth < targetDepth) (run : drain H stack current sink rootWritten = drained) :
    sealUpTo H targetDepth (stack ++ below) current sink rootWritten =
      ⟨(chainUp H drained.1 drained.2.1 targetDepth).1, below, (chainUp H drained.1 drained.2.1 targetDepth).2,
        drained.2.2⟩ := by
  subst run
  induction stack generalizing current sink rootWritten with
  | nil =>
    cases below with
    | nil => rfl
    | cons next rest =>
      have above : ¬ targetDepth ≤ next.depth := not_le.mpr (shallow next rfl)
      simp [sealUpTo, above, drain]
  | cons top rest ih =>
    rw [List.forall_mem_cons] at deep
    rw [List.cons_append, sealUpTo, if_pos deep.1, drain]
    exact ih deep.2 ..

/-- The leaves of the subtree, in order. -/
structure Lists (leaves : LeafMap) (n : Nat) (p : Hash) (list : List CollapsedLeaf) : Prop where
  sorted : list.Pairwise fun a b => a.laneKey < b.laneKey
  inside : ∀ leaf ∈ list, Below n p leaf.laneKey
  values : ∀ leaf ∈ list, leaves leaf.laneKey = leaf.leafHash ∧ leaf.leafHash ≠ Hash.zero
  complete : ∀ key, Below n p key → leaves key ≠ Hash.zero → ∃ leaf ∈ list, leaf.laneKey = key

/-- The leaves of one child. -/
def side (n : Nat) (right : Bool) (list : List CollapsedLeaf) : List CollapsedLeaf :=
  list.filter fun leaf => bitAt leaf.laneKey (255 - n) == right

/-- The next leaf, with the previous one sealed. -/
def advance (H : SmtHasher) (state : Sealing) (leaf : CollapsedLeaf) : Sealing :=
  let done := sealUpTo H (divergenceDepth state.current.representativeKey leaf.laneKey) state.stack
    state.current state.sink state.rootWritten
  ⟨leafEntry H leaf, done.current :: done.stack, done.sink, done.rootWritten⟩

/-- Merging `stack` into the current entry gives an entry with all the leaves of the subtree. -/
def Drains (H : SmtHasher) (leaves : LeafMap) (n : Nat) (p : Hash) (stack : List StackEntry)
    (current : StackEntry) (writes : Writes) : Prop :=
  ∀ sink rootWritten, ∃ entry writes', drain H stack current (sink ++ writes) rootWritten =
      (entry, sink ++ writes', rootWritten || entry.depth == 0) ∧
    Topped H leaves n p entry writes'

section Run

variable {H : SmtHasher} {leaves : LeafMap} {n : Nat} {p : Hash} {list : List CollapsedLeaf} {writes : Writes}
  {right : Bool} {stack below : List StackEntry} {current : StackEntry}

theorem Lists.side (lists : Lists leaves (n + 1) p list) (right : Bool) (sub : Subtree (n + 1) p) : Lists leaves n (child n p right) (side n right list) where
  sorted := lists.sorted.filter _
  inside leaf member := by
    obtain ⟨there, bit⟩ := List.mem_filter.mp member
    exact (beq_iff_eq.mp bit) ▸ (lists.inside leaf there).choose sub.fits
  values leaf member := lists.values leaf (List.mem_filter.mp member).1
  complete key below present := by
    obtain ⟨leaf, member, rfl⟩ := lists.complete key (below.parent sub) present
    exact ⟨leaf, List.mem_filter.mpr ⟨member, beq_iff_eq.mpr ((below_child sub).mp below).2⟩, rfl⟩

theorem Lists.split (lists : Lists leaves (n + 1) p list) (fits : n < 256) :
    list = Smt.side n false list ++ Smt.side n true list := by
  obtain ⟨taken, dropped⟩ := split_by_bit fits lists.sorted lists.inside
  rw [Smt.side, Smt.side, ← taken, ← dropped, List.takeWhile_append_dropWhile]

theorem Lists.bare (lists : Lists leaves n p []) : ∀ key, Below n p key → leaves key = Hash.zero := by
  intro key there
  by_contra present
  obtain ⟨leaf, member, -⟩ := lists.complete key there present
  cases member

theorem Topped.lift {entry : StackEntry} (topped : Topped H leaves n (child n p right) entry writes) (sub : Subtree (n + 1) p) (other : ∀ key, Below n (child n p !right) key → leaves key = Hash.zero) :
    Topped H leaves (n + 1) p entry writes := by
  cases topped with
  | leaf lone =>
    have only := (canon_eq_collapsed sub.down).mp lone
    exact .leaf ((canon_eq_collapsed sub).mpr (onlyLeaf_succ sub only other))
  | branch lower below all branched wrote =>
    refine .branch (by omega) (below.parent sub) (fun k there present => ?_) branched wrote
    rcases there.either sub.fits right with here | gone
    · exact all k here present
    · exact absurd (other k gone) present

theorem Drains.lift (drains : Drains H leaves n (child n p right) stack current writes) (sub : Subtree (n + 1) p) (other : ∀ key, Below n (child n p !right) key → leaves key = Hash.zero) :
    Drains H leaves (n + 1) p stack current writes := by
  intro sink rootWritten
  obtain ⟨entry, writes', run, topped⟩ := drains sink rootWritten
  exact ⟨entry, writes', run, topped.lift sub other⟩

theorem Drains.sealed (fits : n < 256) (sub : Subtree n p)
    (drains : Drains H leaves n p stack current writes) (deep : ∀ e ∈ stack, 256 - n ≤ e.depth) (shallow : ∀ e ∈ below.head?, e.depth < 255 - n) (sink : Writes)
    (rootWritten : Bool) : ∃ entry writes', sealUpTo H (255 - n) (stack ++ below) current (sink ++ writes) rootWritten =
        ⟨entry, below, sink ++ writes', rootWritten⟩ ∧ Sealed H leaves n p entry writes' := by
  obtain ⟨top, topWrites, run, topped⟩ := drains sink rootWritten
  obtain ⟨entry, writes', chained, sealed⟩ := chainUp_sealed sink fits sub topped
  have notRoot : (top.depth == 0) = false := by
    have far := topped.depth_le sub.fits
    exact beq_false_of_ne (by omega)
  refine ⟨entry, writes', ?_, sealed⟩
  rw [sealUpTo_append (fun e member => by have := deep e member; omega) shallow run]
  simp only [chained, notRoot, Bool.or_false]

theorem drains_leaf {leaf : CollapsedLeaf} (lone : canon H leaves n p = .collapsed leaf) :
    Drains H leaves n p [] (leafEntry H leaf) [] := by
  intro sink rootWritten
  refine ⟨leafEntry H leaf, [], ?_, .leaf lone⟩
  simp [drain, leafEntry]

theorem drains_join {left : StackEntry} {leftWrites : Writes} (sub : Subtree (n + 1) p)
    (leftSealed : Sealed H leaves n (child n p false) left leftWrites)
    (drains : Drains H leaves n (child n p true) stack current writes) :
    Drains H leaves (n + 1) p (stack ++ [left]) current (leftWrites ++ writes) := by
  intro sink rootWritten
  obtain ⟨top, topWrites, run, topped⟩ := drains (sink ++ leftWrites) rootWritten
  have notRoot : (top.depth == 0) = false := by
    have small := sub.fits
    have far := topped.depth_le (by omega)
    exact beq_false_of_ne (by omega)
  obtain ⟨right, rightWrites, chained, rightSealed⟩ :=
    chainUp_sealed (sink ++ leftWrites) sub.fits sub.down topped
  obtain ⟨entry, writes', merged, depth, result⟩ :=
    mergePair_topped sink sub leftSealed rightSealed
  refine ⟨entry, writes', ?_, result⟩
  rw [← List.append_assoc] at merged
  rw [← List.append_assoc, drain_append run]
  simp only [drain, leftSealed.depth, chained, merged, notRoot, Bool.or_false, depth]

/-- The leaves of a subtree fed to the builder, over a stack whose entries wait above it: afterwards
the entries on top of that stack are the finished parts of the subtree. -/
theorem run_drains (sub : Subtree n p) {first : CollapsedLeaf} {rest : List CollapsedLeaf}
    (lists : Lists leaves n p (first :: rest)) (shallow : ∀ e ∈ below.head?, e.depth < 256 - n) (sink : Writes)
    (rootWritten : Bool) : ∃ stack last writes, rest.foldl (advance H) ⟨leafEntry H first, below, sink, rootWritten⟩ =
        ⟨leafEntry H last, stack ++ below, sink ++ writes, rootWritten⟩ ∧
      last ∈ first :: rest ∧ (∀ e ∈ stack, 256 - n ≤ e.depth) ∧
      Drains H leaves n p stack (leafEntry H last) writes := by
  induction n generalizing p first rest below sink with
  | zero =>
    -- one key, hence one leaf
    have here : first.laneKey = p := below_zero.mp (lists.inside first List.mem_cons_self)
    obtain rfl : rest = [] := by
      cases rest with
      | nil => rfl
      | cons second rest =>
        have less := (List.pairwise_cons.mp lists.sorted).1 second List.mem_cons_self
        have there : second.laneKey = p :=
          below_zero.mp (lists.inside second (List.mem_cons_of_mem _ List.mem_cons_self))
        rw [here, there] at less
        exact absurd less (BitVec.lt_irrefl _)
    have value := lists.values first List.mem_cons_self
    have lone : canon H leaves 0 p = .collapsed first := by
      refine (canon_eq_collapsed sub).mpr ⟨below_zero.mpr here, value.1, value.2, ?_⟩
      exact fun key there differ => absurd ((below_zero.mp there).trans here.symm) differ
    exact ⟨[], first, [], by simp, List.mem_cons_self, by simp, drains_leaf lone⟩
  | succ n ih =>
    have whole := lists.split sub.fits
    have left := lists.side false sub
    have right := lists.side true sub
    have deeper : ∀ e ∈ below.head?, e.depth < 256 - n := fun e member => by
      have := shallow e member
      omega
    cases atLeft : side n false (first :: rest) with
    | nil =>
      rw [atLeft, List.nil_append] at whole
      rw [← whole] at right
      obtain ⟨stack, last, writes, run, member, deep, drains⟩ :=
        ih sub.down right deeper sink
      exact ⟨stack, last, writes, run, member, fun e there => by have := deep e there; omega,
        drains.lift sub (atLeft ▸ left).bare⟩
    | cons a leftRest =>
      cases atRight : side n true (first :: rest) with
      | nil =>
        rw [atRight, List.append_nil] at whole
        rw [← whole] at left
        obtain ⟨stack, last, writes, run, member, deep, drains⟩ :=
          ih sub.down left deeper sink
        exact ⟨stack, last, writes, run, member, fun e there => by have := deep e there; omega,
          drains.lift sub (atRight ▸ right).bare⟩
      | cons b rightRest =>
        rw [atLeft, atRight, List.cons_append] at whole
        rw [atLeft] at left
        rw [atRight] at right
        cases whole
        obtain ⟨leftStack, leftLast, leftWrites, leftRun, leftMember, leftDeep, leftDrains⟩ :=
          ih sub.down left deeper sink
        -- the first key on the right leaves the path of the last one on the left here
        have diverge : divergenceDepth leftLast.laneKey b.laneKey = 255 - n := by
          have inLeft := (below_child sub).mp (left.inside leftLast leftMember)
          have inRight := (below_child sub).mp (right.inside b List.mem_cons_self)
          refine divergenceDepth_eq (by omega) ?_ (by rw [inLeft.2, inRight.2]; simp)
          rw [show 255 - n = 256 - (n + 1) by omega]
          exact inLeft.1.trans inRight.1.symm
        obtain ⟨sealedLeft, sealedWrites, sealing, sealed⟩ :=
          leftDrains.sealed sub.fits sub.down leftDeep (by
            rw [show 255 - n = 256 - (n + 1) by omega]
            exact shallow) sink rootWritten
        have waiting : ∀ e ∈ (sealedLeft :: below).head?, e.depth < 256 - n := by
          rintro e ⟨⟩
          have := sub.fits
          rw [sealed.depth]
          omega
        obtain ⟨stack, last, writes, run, member, deep, drains⟩ :=
          ih sub.down right waiting (sink ++ sealedWrites)
        refine ⟨stack ++ [sealedLeft], last, sealedWrites ++ writes, ?_, ?_, ?_, ?_⟩
        · rw [List.foldl_append, leftRun, List.foldl_cons]
          have next : advance H ⟨leafEntry H leftLast, leftStack ++ below, sink ++ leftWrites,
              rootWritten⟩ b = ⟨leafEntry H b, sealedLeft :: below, sink ++ sealedWrites,
              rootWritten⟩ := by
            have path : divergenceDepth (leafEntry H leftLast).representativeKey b.laneKey = 255 - n := diverge
            simp only [advance, path, sealing]
          rw [next, run]
          simp
        · exact List.mem_cons_of_mem _ (List.mem_append_right _ member)
        · intro e there
          rcases List.mem_append.mp there with inStack | isLeft
          · have := deep e inStack
            omega
          · rw [List.mem_singleton.mp isLeft, sealed.depth]
            omega
        · exact drains_join sub sealed drains

end Run

/-! ## The whole stream -/

def Ascending (leaves : List CollapsedLeaf) : Prop :=
  leaves.Pairwise fun a b => a.laneKey < b.laneKey

/-- The update that sets a leaf. -/
def CollapsedLeaf.update (leaf : CollapsedLeaf) : LeafUpdate := ⟨leaf.laneKey, leaf.leafHash⟩

/-- The leaves as one batch. -/
def leafUpdates (leaves : List CollapsedLeaf) (ascending : Ascending leaves) : SortedLeafUpdates :=
  ⟨leaves.map CollapsedLeaf.update, List.pairwise_map.mpr ascending⟩

variable {leaves : List CollapsedLeaf} {H : SmtHasher}

theorem lists_of_ascending (ascending : Ascending leaves) (nonzero : ∀ leaf ∈ leaves, leaf.leafHash ≠ Hash.zero) :
    Lists (applied noLeaves (leafUpdates leaves ascending).updates) 256 Hash.zero leaves where
  sorted := ascending
  inside leaf _ := below_root leaf.laneKey
  values leaf member := by
    have there : leaf.update ∈ (leafUpdates leaves ascending).updates := List.mem_map_of_mem member
    have found : written (leafUpdates leaves ascending).updates leaf.laneKey = some leaf.leafHash :=
      written_of_mem _ there
    refine ⟨?_, nonzero leaf member⟩
    rw [applied, found]
    rfl
  complete key _ present := by
    by_contra missing
    push Not at missing
    refine present ?_
    have untouched : written (leafUpdates leaves ascending).updates key = none := by
      refine written_eq_none.mpr fun u member => ?_
      obtain ⟨leaf, there, rfl⟩ := List.mem_map.mp member
      exact missing leaf there
    rw [applied, untouched]
    rfl

namespace StreamingSmtBuilder

/-- The builder between two leaves. -/
def ofSealing (state : Sealing) (remaining : Nat) : StreamingSmtBuilder :=
  ⟨state.stack, some state.current, remaining, none, state.rootWritten, state.sink⟩

/-- The builder after a leaf: finalized if it was the last one. -/
def settled (H : SmtHasher) (state : Sealing) (remaining : Nat) : StreamingSmtBuilder :=
  if remaining = 0 then (ofSealing state 0).finalize H else ofSealing state remaining

variable {state : Sealing} {leaf : CollapsedLeaf} {leaves : List CollapsedLeaf} {H : SmtHasher}
  {builder : StreamingSmtBuilder}

theorem feed_ofSealing (H : SmtHasher) (ascending : state.current.representativeKey < leaf.laneKey) (remaining : Nat) :
    feed H (ofSealing state (remaining + 1)) leaf = .ok (settled H (advance H state leaf) remaining) := by
  have fresh := BitVec.not_le.mpr ascending
  simp only [feed, ofSealing, Option.isSome_none, Bool.false_eq_true, if_false, fresh, accept,
    sealPrevious, settled, Nat.add_sub_cancel]
  by_cases last : remaining = 0
  · subst last
    rfl
  · rw [if_neg last, if_neg last]
    rfl

theorem feed_new (H : SmtHasher) (first : CollapsedLeaf) (remaining : Nat) :
    feed H (.new H (remaining + 1)) first = .ok (settled H ⟨leafEntry H first, [], [], false⟩ remaining) := by
  simp only [feed, new, Nat.succ_ne_zero, if_false, Option.isSome_none,
    Bool.false_eq_true, accept, settled, ofSealing, Nat.add_sub_cancel]
  by_cases only : remaining = 0 <;> simp [only]

theorem foldlM_feed (H : SmtHasher)
    (ascending : (state.current.representativeKey :: leaves.map CollapsedLeaf.laneKey).Pairwise (· < ·)) :
    leaves.foldlM (feed H) (settled H state leaves.length) = .ok (settled H (leaves.foldl (advance H) state) 0) := by
  induction leaves generalizing state with
  | nil => rfl
  | cons leaf rest ih =>
    rw [List.map_cons, List.pairwise_cons] at ascending
    have first := ascending.1 leaf.laneKey List.mem_cons_self
    have started : settled H state (leaf :: rest).length = ofSealing state (rest.length + 1) := rfl
    rw [List.foldlM_cons, started, feed_ofSealing H first]
    exact ih ascending.2

section Finalize

variable {H : SmtHasher} {leaves : LeafMap}

private theorem wrote_root {leaf : CollapsedLeaf} {key : Hash} (lone : canon H leaves 256 Hash.zero = .collapsed leaf) :
    Wrote H leaves 256 Hash.zero [(.new 0 key, .collapsed leaf)] := by
  have top := branchKey_of_below (below_root key)
  refine ⟨List.nodup_singleton _, fun k node => ?_⟩
  rw [top, List.mem_singleton, Prod.mk.injEq, nodeAt_of_collapsed lone]

theorem finalize_spec {stack : List StackEntry} {current : StackEntry} {writes : Writes}
    (drains : Drains H leaves 256 Hash.zero stack current writes) :
    ∃ sink, ((ofSealing ⟨current, stack, writes, false⟩ 0).finalize H).finish =
        .ok (canonRoot H leaves, sink) ∧ Wrote H leaves 256 Hash.zero sink := by
  obtain ⟨entry, topWrites, run, topped⟩ := drains [] false
  have noneBelow : ∀ e ∈ ([] : List StackEntry).head?, e.depth < 0 := by simp
  have deep : ∀ e ∈ stack, 0 ≤ e.depth := fun e _ => Nat.zero_le _
  have sealing := sealUpTo_append deep noneBelow run
  rw [List.append_nil, List.nil_append] at sealing
  cases topped with
  | @leaf leaf lone =>
    refine ⟨[(.new 0 leaf.laneKey, .collapsed leaf)], ?_, wrote_root lone⟩
    have root : canonRoot H leaves = hashNode H.collapsed leaf.laneKey leaf.leafHash := by
      rw [canonRoot, lone, NodeResult.rootHash]
    simp [finalize, ofSealing, sealing, chainUp, leafEntry, finish, root]
  | @branch m key hash _ lower below all branched wrote =>
    rcases Nat.eq_or_lt_of_le (Nat.lt_succ_iff.mp lower) with whole | lower'
    · -- the last merge was at the root
      subst whole
      have here : firstBits (255 - 255) key = Hash.zero := by simp [Hash.zero]
      rw [here] at branched wrote
      have root : canonRoot H leaves = hash := by rw [canonRoot, branched, NodeResult.rootHash]
      refine ⟨topWrites, ?_, wrote⟩
      simp [finalize, ofSealing, sealing, chainUp, finish, root]
    · -- it was below: the child of the root is there, and the root is one more level up
      have first : Below 255 (firstBits 1 key) key := rfl
      have topped : Topped H leaves 255 (firstBits 1 key) ⟨255 - m, hash, key, .internal⟩ topWrites :=
        .branch lower' first (fun k _ present => all k (below_root k) present) branched wrote
      obtain ⟨entry, entryWrites, chained, sealed⟩ :=
        chainUp_sealed [] (by decide) (first.subtree (by decide)) topped
      rw [List.nil_append, List.nil_append] at chained
      obtain ⟨sameKind, sameKey⟩ := chainUp_same H ⟨255 - m, hash, key, .internal⟩ topWrites (255 - 255)
      rw [chained] at sameKind sameKey
      change entry.kind = .internal at sameKind
      change entry.representativeKey = key at sameKey
      obtain ⟨rootHash, sink, rootRun, _ | ⟨rootBranched, rootWrote⟩⟩ := mergeChainWithEmpty_spec [] (rfl : 0 + 1 + 255 = 256)
        (sameKind ▸ sealed.finished) fun k _ present => firstBits_mono (by omega) (all k (below_root k) present)
      have here : firstBits 0 key = Hash.zero := by simp [Hash.zero]
      rw [here] at rootBranched rootWrote
      have root : canonRoot H leaves = rootHash := by
        rw [canonRoot, rootBranched, NodeResult.rootHash]
      have notYet : (255 - m == 0) = false := beq_false_of_ne (by omega)
      refine ⟨sink, ?_, rootWrote⟩
      rw [List.nil_append, List.nil_append] at rootRun
      simp only [Nat.sub_self] at chained
      simp only [List.nil_append, notYet, Bool.or_self, chained] at sealing
      simp only [finalize, ofSealing, sealing, sameKind, sameKey, Bool.false_eq_true, if_false, rootRun, finish, root]

end Finalize

theorem finalize_root (H : SmtHasher) (builder : StreamingSmtBuilder) : (builder.finalize H).root.isSome := by
  unfold finalize
  split
  · rfl
  · simp only
    split
    · rfl
    · split <;> rfl

theorem feed_eq_ok {next : StreamingSmtBuilder} (fed : feed H builder leaf = .ok next) :
    builder.root = none ∧ (∀ prev ∈ builder.current, prev.representativeKey < leaf.laneKey) ∧
      ∃ ready : StreamingSmtBuilder, ready.root = none ∧ ready.remaining = builder.remaining ∧
        next = ready.accept H leaf := by
  unfold feed at fed
  split at fed
  · cases fed
  next unfinished =>
    have missing : builder.root = none := by simpa using unfinished
    split at fed
    next prev was =>
      split at fed
      · cases fed
      next above =>
        refine ⟨missing, ?_, builder.sealPrevious H prev leaf.laneKey, missing, rfl, ?_⟩
        · rintro entry there
          cases was.symm.trans there
          exact BitVec.not_le.mp above
        · exact (Except.ok.inj fed).symm
    next was =>
      refine ⟨missing, ?_, builder, missing, rfl, (Except.ok.inj fed).symm⟩
      rintro entry there
      rw [was] at there
      cases there

/-- Leaves are taken only in ascending order, and the root is there only after the last one. -/
theorem foldlM_feed_ok {last : StreamingSmtBuilder} (run : leaves.foldlM (feed H) builder = .ok last)
    (complete : last.root.isSome) : (builder.root.isSome → leaves = []) ∧ (builder.root = none → 0 < builder.remaining →
        leaves.length = builder.remaining ∧ Ascending leaves ∧
          ∀ prev ∈ builder.current, ∀ leaf ∈ leaves, prev.representativeKey < leaf.laneKey) := by
  induction leaves generalizing builder with
  | nil =>
    cases run
    refine ⟨fun _ => rfl, fun missing => ?_⟩
    simp [missing] at complete
  | cons leaf rest ih =>
    rw [List.foldlM_cons] at run
    cases fed : feed H builder leaf with
    | error error =>
      rw [fed] at run
      cases run
    | ok next =>
      rw [fed] at run
      obtain ⟨missing, above, ready, readyRoot, readyRemaining, rfl⟩ := feed_eq_ok fed
      refine ⟨fun done => by simp [missing] at done, fun _ positive => ?_⟩
      obtain ⟨closed, continues⟩ := ih run
      rcases Nat.eq_or_lt_of_le (Nat.succ_le_of_lt positive) with one | more
      · -- the last leaf closes the builder
        have final : (ready.accept H leaf).root.isSome := by
          rw [accept]
          simp only [readyRemaining, ← one, Nat.succ_eq_add_one, Nat.zero_add, Nat.sub_self, if_true]
          exact finalize_root H _
        obtain rfl := closed final
        refine ⟨by simp [← one], List.pairwise_singleton _ _, fun prev there k member => ?_⟩
        rw [List.mem_singleton.mp member]
        exact above prev there
      · have open' : (ready.accept H leaf) = { ready with
            remaining := builder.remaining - 1, current := some (leafEntry H leaf) } := by
          rw [accept]
          simp only [readyRemaining]
          rw [if_neg (by omega)]
        obtain ⟨count, ascending, after⟩ := continues (by rw [open']; exact readyRoot) (by rw [open']; simp only; omega)
        rw [open'] at count after
        have later := after (leafEntry H leaf) rfl
        refine ⟨?_, List.pairwise_cons.mpr ⟨later, ascending⟩, fun prev there k member => ?_⟩
        · rw [List.length_cons, count]
          simp only
          omega
        · rcases List.mem_cons.mp member with rfl | inRest
          · exact above prev there
          · exact BitVec.lt_trans (above prev there) (later k inRest)

end StreamingSmtBuilder

open StreamingSmtBuilder

theorem ascending_of_rebuild {expectedCount : Nat} {result : Hash × Writes}
    (rebuilt : rebuildFromSortedLeaves H expectedCount leaves = .ok result) :
    Ascending leaves ∧ leaves.length = expectedCount := by
  unfold rebuildFromSortedLeaves at rebuilt
  cases run : leaves.foldlM (feed H) (.new H expectedCount) with
  | error error =>
    rw [run] at rebuilt
    cases rebuilt
  | ok builder =>
    rw [run] at rebuilt
    have complete : builder.root.isSome := by
      cases root : builder.root with
      | some hash => rfl
      | none =>
        have failed : builder.finish = .error .notFinalized := by rw [finish, root]
        exact absurd (failed.symm.trans rebuilt) (by simp)
    obtain ⟨closed, continues⟩ := foldlM_feed_ok run complete
    rcases Nat.eq_zero_or_pos expectedCount with rfl | positive
    · obtain rfl := closed rfl
      exact ⟨List.Pairwise.nil, rfl⟩
    · have missing : (new H expectedCount).root = none := if_neg (by omega)
      obtain ⟨count, ascending, -⟩ := continues missing positive
      exact ⟨ascending, count⟩

theorem rebuild_of_ascending (H : SmtHasher) (ascending : Ascending leaves)
    (nonzero : ∀ leaf ∈ leaves, leaf.leafHash ≠ Hash.zero) : ∃ writes, rebuildFromSortedLeaves H leaves.length leaves =
        .ok (canonRoot H (applied noLeaves (leafUpdates leaves ascending).updates), writes) ∧
      Wrote H (applied noLeaves (leafUpdates leaves ascending).updates) 256 Hash.zero writes := by
  have lists := lists_of_ascending ascending nonzero
  cases leaves with
  | nil =>
    have empty := canonRoot_noLeaves H
    refine ⟨[], ?_, wrote_of_empty (canon_noLeaves root_subtree)⟩
    change Except.ok (emptyRoot H, []) = Except.ok (canonRoot H noLeaves, [])
    rw [empty]
  | cons first rest =>
    have noneBelow : ∀ e ∈ ([] : List StackEntry).head?, e.depth < 256 - 256 := by simp
    obtain ⟨stack, last, writes, run, -, -, drains⟩ :=
      run_drains (H := H) root_subtree lists noneBelow [] false
    obtain ⟨sink, finished, wrote⟩ := finalize_spec drains
    refine ⟨sink, ?_, wrote⟩
    have started : feed H (.new H (first :: rest).length) first =
        .ok (settled H ⟨leafEntry H first, [], [], false⟩ rest.length) := feed_new H first rest.length
    have fed : rest.foldlM (feed H) (settled H ⟨leafEntry H first, [], [], false⟩ rest.length) = _ :=
      foldlM_feed H (List.pairwise_map.mpr ascending)
    rw [List.append_nil, List.nil_append] at run
    rw [run] at fed
    rw [rebuildFromSortedLeaves, List.foldlM_cons, started]
    change (rest.foldlM (feed H) _ >>= _) = _
    rw [fed]
    exact finished

theorem scratch_represents (H : SmtHasher) (ascending : Ascending leaves)
    (nonzero : ∀ leaf ∈ leaves, leaf.leafHash ≠ Hash.zero) :
    Represents H (overlaid H (fun _ => none) (emptyRoot H) (leafUpdates leaves ascending))
      (applied noLeaves (leafUpdates leaves ascending).updates) := by
  have noDeletes : DeletesPresent noLeaves (leafUpdates leaves ascending).updates := by
    intro u member cleared
    obtain ⟨leaf, there, rfl⟩ := List.mem_map.mp member
    exact absurd cleared (nonzero leaf there)
  rw [← canonRoot_noLeaves]
  exact (overlaid_exact (represents_empty H) (fun _ there => absurd rfl there) noDeletes).1

theorem Wrote.mem_iff {ascending : Ascending leaves} {writes : Writes}
    (wrote : Wrote H (applied noLeaves (leafUpdates leaves ascending).updates) 256 Hash.zero writes)
    (nonzero : ∀ leaf ∈ leaves, leaf.leafHash ≠ Hash.zero) (key : BranchKey) (node : Node) :
    (key, node) ∈ writes ↔ overlaid H (fun _ => none) (emptyRoot H) (leafUpdates leaves ascending) key = some node := by
  rw [wrote.nodes]
  by_cases inside : InTree 256 Hash.zero key
  · exact ((scratch_represents H ascending nonzero).nodeAt_iff root_subtree inside).symm
  · rw [(overlaid_updated (represents_empty H) _ _).frame _ inside]
    exact iff_of_false (fun there => inside (there.inTree root_subtree)) (by simp)

/-- A streamed tree is the tree of one batch over an empty store: the same root, and the same nodes,
each written once. Any stream out of order, with a key twice or not of the announced length is an
error. -/
theorem rebuildFromSortedLeaves_eq_batch (H : SmtHasher) (expectedCount : Nat)
    (leaves : List CollapsedLeaf) :
    (∀ ascending : Ascending leaves, (∀ leaf ∈ leaves, leaf.leafHash ≠ Hash.zero) →
      leaves.length = expectedCount →
      ∃ writes, rebuildFromSortedLeaves H expectedCount leaves =
          .ok ((computeRootUpdate H (fun _ => none) (emptyRoot H) (leafUpdates leaves ascending)).1,
            writes) ∧
        (writes.map Prod.fst).Nodup ∧
        ∀ key node, (key, node) ∈ writes ↔
          (computeRootUpdate H (fun _ => none) (emptyRoot H)
            (leafUpdates leaves ascending)).2.lookup key = some (some node)) ∧
    (¬ (Ascending leaves ∧ leaves.length = expectedCount) →
      ∃ error, rebuildFromSortedLeaves H expectedCount leaves = .error error) := by
  constructor
  · rintro ascending nonzero rfl
    obtain ⟨writes, rebuilt, wrote⟩ := rebuild_of_ascending H ascending nonzero
    rw [← computeRootUpdate_scratch] at rebuilt
    refine ⟨writes, rebuilt, wrote.once, fun key node => ?_⟩
    rw [wrote.mem_iff nonzero, overlaid_empty_iff]
  · intro irregular
    cases rebuilt : rebuildFromSortedLeaves H expectedCount leaves with
    | error error => exact ⟨error, rfl⟩
    | ok result => exact absurd (ascending_of_rebuild rebuilt) irregular

namespace Sample

def twoLeaves : List CollapsedLeaf := [⟨0#256, 7#256⟩, ⟨1#256 <<< 255, 9#256⟩]

theorem twoLeaves_ascending : Ascending twoLeaves :=
  List.pairwise_pair.mpr (by decide : (0#256) < 1#256 <<< 255)

end Sample

open Sample in
theorem rebuildFromSortedLeaves_eq_batch_twoLeaves :
    (∃ writes, rebuildFromSortedLeaves hasher 2 twoLeaves =
        .ok ((computeRootUpdate hasher (fun _ => none) (emptyRoot hasher)
          (leafUpdates twoLeaves twoLeaves_ascending)).1, writes) ∧
      (writes.map Prod.fst).Nodup ∧
      ∀ key node, (key, node) ∈ writes ↔
        (computeRootUpdate hasher (fun _ => none) (emptyRoot hasher)
          (leafUpdates twoLeaves twoLeaves_ascending)).2.lookup key = some (some node)) ∧
    ∃ error, rebuildFromSortedLeaves hasher 3 twoLeaves = .error error :=
  ⟨(rebuildFromSortedLeaves_eq_batch hasher 2 twoLeaves).1 twoLeaves_ascending (by decide) rfl,
    (rebuildFromSortedLeaves_eq_batch hasher 3 twoLeaves).2 fun regular => by
      simp [twoLeaves] at regular⟩

open Sample in
/-- Three nodes, the children before the root. -/
example : (rebuildFromSortedLeaves hasher 2 twoLeaves).toOption.map (fun result => result.2.map Prod.fst) =
    some [⟨1, 0#256⟩, ⟨1, 1#256 <<< 255⟩, ⟨0, 0#256⟩] := by
  decide +kernel

end Marigold.Smt
