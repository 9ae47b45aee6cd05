import Mathlib.Data.Prod.Lex
import Marigold.Lib.BestFirst
import Marigold.Consensus.Node
import Marigold.Finality.Ratchet

/-!
# The sink search

`sink_search_algorithm` (`virtual_processor/processor.rs`): the tips, then the parents of what was
refused, are tried in the order of blue work. A candidate needs the finality point and the enforced
anchor on its selected chain, and a valid UTXO state.
-/

namespace Marigold.Consensus

open Lib NotePool Utxo Finality

/-! ## Parents -/

namespace Dag

variable (D : Dag)

/-- `get_parents`: those the node knows. -/
def parents (h : Hash) : List Hash :=
  if D.known h then (D.header h).directParents.filter (D.known ·) else []

def isDagAncestorOf (ancestor h : Hash) : Bool := reachesWithin D.parents (D.blueWork h) ancestor h

/-- The key of `SortableBlock`. -/
def sortKey (h : Hash) : ℕ ×ₗ ℕ := toLex (D.blueWork h, h.toNat)

/-- Blue work grows from every parent to its child, and the selected parent is one of the parents. -/
structure Weighted : Prop where
  lighter : ∀ h, ∀ p ∈ D.parents h, D.blueWork p < D.blueWork h
  selected : ∀ h p, D.chainParent h = some p → p ∈ D.parents h

variable {D} {a b h : Hash}

theorem sortsBefore_iff : D.sortsBefore a b = true ↔ D.sortKey a ≤ D.sortKey b := by
  simp only [sortsBefore, sortKey, Prod.Lex.toLex_le_toLex, Bool.or_eq_true, Bool.and_eq_true,
    decide_eq_true_eq, beq_iff_eq, BitVec.le_def]

theorem Weighted.isDagAncestorOf_iff (weighted : D.Weighted) : D.isDagAncestorOf a b = true ↔ Past D.parents a b :=
  reachesWithin_iff weighted.lighter le_rfl

theorem Weighted.past_of_chain (weighted : D.Weighted) (onChain : a ∈ D.backwardChain b) : Past D.parents a b := by
  induction b using D.forest.line_induction with
  | root b above =>
    have line : D.backwardChain b = [b] := D.forest.line_of_root above
    rw [line, List.mem_singleton] at onChain
    exact onChain ▸ .refl
  | next b p above ih =>
    have line : D.backwardChain b = b :: D.backwardChain p := D.forest.line_of_parent above
    rw [line] at onChain
    rcases List.mem_cons.mp onChain with rfl | further
    · exact .refl
    · exact (ih further).tail (weighted.selected b p above)

theorem OnRoot.above (onRoot : D.OnRoot a) (onChain : a ∈ D.backwardChain b) : D.OnRoot b := by
  refine ⟨?_, D.isChainAncestorOf_iff.mpr (D.forest.mem_line_trans onChain (D.isChainAncestorOf_iff.mp onRoot.2))⟩
  by_cases same : b = a
  · exact same ▸ onRoot.1
  · cases above : D.chainParent b with
    | none =>
      rw [backwardChain, D.forest.line_of_root above, List.mem_singleton] at onChain
      exact absurd onChain.symm same
    | some p => exact (D.chainParent_eq_some.mp above).2.1

end Dag

/-! ## The search -/

section Search

variable {M : Type}

/-- What the search is told, and the merge depth roots of the depth store. -/
structure SinkRules where
  finalityPoint : Hash
  anchorGuard : Option Hash
  mergeDepthRoot : Hash → Hash

/-- The enforced anchor, if there is one, is on the block's selected chain. -/
def anchorOk (D : Dag) (anchorGuard : Option Hash) (candidate : Hash) : Bool :=
  anchorGuard.all (D.isChainAncestorOf · candidate)

section Algorithm

variable (V : VirtualProcessor M) (D : Dag) (virtual : VirtualStores) (R : SinkRules)

/-- One round of the loop: whether the candidate becomes the sink, and where the walk is then. -/
def tryCandidate (walk : ChainWalk M) (candidate : Hash) : Outcome Empty (Bool × ChainWalk M) :=
  if !anchorOk D R.anchorGuard candidate then .ok (false, walk)
  else if D.isChainAncestorOf R.finalityPoint candidate then do
    let walk ← calculateUtxoStateRelatively V D virtual walk candidate
    return (walk.diffPoint = candidate, walk)
  else .ok (false, walk)

/-- The heap with its order, the filter on parents, and the panic when it is empty. -/
def sinkSearch : Lib.BestFirst Hash (ℕ ×ₗ ℕ) (ChainWalk M) (Failure Empty) where
  key := D.sortKey
  parents := D.parents
  inPast := D.isDagAncestorOf
  keep := D.isDagAncestorOf R.finalityPoint
  attempt := tryCandidate V D virtual R
  exhausted := .panic .unwrap

/-- What is left in the heap, best first, down to the blue work of the sink's merge depth root. -/
def virtualParentCandidates (sink : Hash) (heap : List Hash) : List Hash :=
  let filteringRoot := R.mergeDepthRoot sink
  let filteringBlueWork := if D.known filteringRoot then D.blueWork filteringRoot else 0
  (heap.insertionSort fun a b => D.sortsBefore b a).takeWhile (filteringBlueWork ≤ D.blueWork ·)

def withParentCandidates (found : Hash × List Hash × ChainWalk M) : Hash × List Hash × ChainWalk M :=
  (found.1, virtualParentCandidates D R found.1 found.2.1, found.2.2)

/-- The sink, candidates for virtual's other parents, and the walk, which is at the sink. -/
def sinkSearchAlgorithm (fuel : Nat) (walk : ChainWalk M) (tips : List Hash) :
    Option (Outcome Empty (Hash × List Hash × ChainWalk M)) :=
  ((sinkSearch V D virtual R).run fuel tips walk).map (·.map (withParentCandidates D R))

end Algorithm

/-! ## What it finds -/

/-- UTXO valid, with the finality point and the enforced anchor on its selected chain. -/
structure Admissible (V : VirtualProcessor M) (D : Dag) (start : List Transaction)
    (origin : ChainTip M) (R : SinkRules) (h : Hash) : Prop where
  valid : ∃ accepted tip, Settles V D start origin h accepted tip
  finality : D.isChainAncestorOf R.finalityPoint h = true
  anchor : anchorOk D R.anchorGuard h = true

/-- In the past of one of the tips, or one of them. -/
def Dag.InPastOf (D : Dag) (tips : List Hash) (h : Hash) : Prop :=
  ∃ tip ∈ tips, Past D.parents h tip

variable {V : VirtualProcessor M} {D : Dag} {start : List Transaction} {origin : ChainTip M}
  {virtual : VirtualStores} {R : SinkRules} {node : NodeState M} {walk walk' : ChainWalk M}

theorem sinkSearch_lawful (weighted : D.Weighted) : (sinkSearch V D virtual R).Lawful where
  lighter a p parent := Prod.Lex.toLex_lt_toLex.mpr (.inl (weighted.lighter a p parent))
  exact _ _ := weighted.isDagAncestorOf_iff

/-- The walks the search can be at are those that tried some candidates. -/
def Tried (V : VirtualProcessor M) (D : Dag) (node : NodeState M) (walk : ChainWalk M) : Prop :=
  ∃ candidates, (∀ h ∈ candidates, D.OnRoot h) ∧ node.tryCandidates V D candidates = .ok walk

theorem Tried.next (tried : Tried V D node walk) {candidate : Hash} (onRoot : D.OnRoot candidate)
    (step : calculateUtxoStateRelatively V D node.virtual walk candidate = .ok walk') : Tried V D node walk' := by
  obtain ⟨candidates, allOnRoot, done⟩ := tried
  refine ⟨candidates ++ [candidate], ?_, ?_⟩
  · simp only [List.mem_append, List.mem_singleton]
    rintro h (before | rfl)
    · exact allOnRoot h before
    · exact onRoot
  · rw [NodeState.tryCandidates, tryCandidates, List.foldlM_append]
    rw [NodeState.tryCandidates, tryCandidates] at done
    rw [done]
    simp only [bind, Except.bind, List.foldlM_cons, List.foldlM_nil, step]
    rfl

theorem Tried.sound (tried : Tried V D node walk) (rooted : Rooted V D start origin)
    (sound : NodeSound V D start origin node) : WalkSound V D start origin node.virtual walk := by
  obtain ⟨candidates, allOnRoot, done⟩ := tried
  rcases sound.tryCandidates rooted allOnRoot with ⟨_, _, panicked, _⟩ | ⟨walk', done', walkSound⟩
  · cases panicked.symm.trans done
  · cases done.symm.trans done'
    exact walkSound

theorem sinkSearch_sound (rooted : Rooted V D start origin) (weighted : D.Weighted)
    (sound : NodeSound V D start origin node) (finalityOnRoot : D.OnRoot R.finalityPoint) :
    (sinkSearch V D node.virtual R).Sound (Tried V D node) (Admissible V D start origin R)
      (fun walk sink => walk.diffPoint = sink)
      fun failure => ∃ cause h, failure = .panic cause ∧ BlockPanics V D start origin h where
  attempt walk candidate tried := by
    simp only [sinkSearch, tryCandidate]
    cases anchor : anchorOk D R.anchorGuard candidate with
    | false => exact .inr ⟨walk, tried, .inr ⟨rfl, fun good => nomatch anchor.symm.trans good.anchor⟩⟩
    | true =>
      cases finality : D.isChainAncestorOf R.finalityPoint candidate with
      | false =>
        exact .inr ⟨walk, tried, .inr ⟨rfl, fun good => nomatch finality.symm.trans good.finality⟩⟩
      | true =>
        have onRoot := finalityOnRoot.above (D.isChainAncestorOf_iff.mp finality)
        rcases calculateUtxoStateRelatively_spec rooted sound.base (tried.sound rooted sound) onRoot with
          ⟨cause, h, panicked, block⟩ | ⟨walk', done, climbing⟩
        · refine .inl ⟨.panic cause, ?_, cause, h, rfl, block⟩
          rw [panicked]
          rfl
        · refine .inr ⟨walk', tried.next onRoot done, ?_⟩
          rw [done]
          by_cases at_ : walk'.diffPoint = candidate
          · -- The walk got there, so the candidate is UTXO valid.
            obtain ⟨accepted, tip, settles, _⟩ := climbing.sound.leads
            refine .inl ⟨?_, ⟨⟨accepted, tip, at_ ▸ settles⟩, finality, anchor⟩, at_⟩
            simp [bind, Except.bind, pure, Except.pure, at_]
          · refine .inr ⟨?_, fun good => ?_⟩
            · simp [bind, Except.bind, pure, Except.pure, at_]
            · obtain ⟨accepted, tip, settles⟩ := good.valid
              exact climbing.top.resolve_left at_ accepted tip settles
  keep a b good past := by
    have below := weighted.past_of_chain (D.isChainAncestorOf_iff.mp good.finality)
    exact weighted.isDagAncestorOf_iff.mpr (below.trans past)

theorem sinkSearchAlgorithm_mono {fuel more : Nat} (le : fuel ≤ more) {tips : List Hash}
    {outcome : Outcome Empty (Hash × List Hash × ChainWalk M)}
    (result : sinkSearchAlgorithm V D virtual R fuel walk tips = some outcome) :
    sinkSearchAlgorithm V D virtual R more walk tips = some outcome := by
  obtain ⟨found, ran, mapped⟩ := Option.map_eq_some_iff.mp result
  rw [sinkSearchAlgorithm, Lib.BestFirst.run_mono le ran]
  exact congrArg some mapped

/-- In every state of the node, for all tips, every finality point over the root and every anchor, the
search ends. A sink it returns is admissible and the greatest admissible block, by blue work and then
hash, in the past of the tips. If the previous sink is still one of them, a sink is returned, unless
computing the state of some block panics. -/
theorem sinkSearchAlgorithm_best (rooted : Rooted V D start origin) (weighted : D.Weighted)
    (reached : NodeReaches V D origin node) (tips : List Hash)
    (finalityOnRoot : D.OnRoot R.finalityPoint) :
    ∃ fuel outcome,
      (∀ more, fuel ≤ more → sinkSearchAlgorithm V D node.virtual R more
        (.fromSink node.virtual node.stores) tips = some outcome) ∧
      (∀ sink candidates walk, outcome = .ok (sink, candidates, walk) →
        Admissible V D start origin R sink ∧ D.InPastOf tips sink ∧
          ∀ h, Admissible V D start origin R h → D.InPastOf tips h → D.sortsBefore h sink = true) ∧
      (Admissible V D start origin R node.virtual.sink → D.InPastOf tips node.virtual.sink →
        (∃ sink candidates walk, outcome = .ok (sink, candidates, walk)) ∨
          ∃ cause h, outcome = .panicked cause ∧ BlockPanics V D start origin h) := by
  have sound := reached.sound rooted
  have lawful : (sinkSearch V D node.virtual R).Lawful := sinkSearch_lawful weighted
  have searchSound := sinkSearch_sound rooted weighted sound finalityOnRoot
  have tried : Tried V D node (.fromSink node.virtual node.stores) := ⟨[], by simp, rfl⟩
  obtain ⟨fuel, outcome, result⟩ := lawful.ends tips (.fromSink node.virtual node.stores)
  refine ⟨fuel, outcome.map (withParentCandidates D R), fun more le => ?_, ?_, ?_⟩
  · exact sinkSearchAlgorithm_mono le (by rw [sinkSearchAlgorithm, result]; rfl)
  · intro sink candidates walk found
    rcases outcome with failure | ⟨best, rest, walk'⟩
    · cases found
    · cases found
      obtain ⟨_, _, good, under, highest⟩ := lawful.run_ok searchSound tried result
      exact ⟨good, under, fun h admissible inPast =>
        Dag.sortsBefore_iff.mpr (highest h admissible inPast)⟩
  · intro admissible inPast
    rcases outcome with failure | ⟨best, rest, walk'⟩
    · rcases lawful.run_error searchSound tried result with ⟨cause, h, rfl, block⟩ | ⟨_, nothing⟩
      · exact .inr ⟨cause, h, rfl, block⟩
      · exact absurd inPast (nothing _ admissible)
    · exact .inl ⟨_, _, _, rfl⟩

end Search

namespace Sample

theorem fork_weighted : fork.Weighted where
  lighter h p parent := by
    have lighter : forkHashes.all (fun h => (fork.parents h).all fun p =>
        fork.blueWork p < fork.blueWork h) = true := by decide +kernel
    by_cases known : fork.known h = true
    · have here := List.all_eq_true.mp lighter h (fork_known known)
      exact of_decide_eq_true (List.all_eq_true.mp here p parent)
    · simp [Dag.parents, known] at parent
  selected h p above := by
    obtain ⟨notRoot, known, _, rfl⟩ := fork.chainParent_eq_some.mp above
    have selected : forkHashes.all (fun h => h = 1 ∨ fork.selectedParent h ∈ fork.parents h) =
        true := by decide +kernel
    have here := of_decide_eq_true (List.all_eq_true.mp selected h (fork_known known))
    exact here.resolve_left notRoot

/-- Finality at genesis, and block 3 anchored. -/
def forkRules : SinkRules := ⟨1, some 3, fun _ => 1⟩

end Sample

open Sample in
/-- Of the tips 4, 5 and 6, block 6 has the highest hash but not the anchor on its chain, and block 5
has no valid state. The search finds block 4, and leaves block 2 for virtual's other parents. -/
theorem sinkSearchAlgorithm_best_fork :
    (∃ walk, sinkSearchAlgorithm node fork forkMinted.virtual forkRules 9
        (.fromSink forkMinted.virtual forkMinted.stores) [4, 5, 6] = some (.ok (4, [2], walk))) ∧
      Admissible node fork [] (genesisTip node (fork.block 1)) forkRules 4 ∧
      ∀ h, Admissible node fork [] (genesisTip node (fork.block 1))
          forkRules h →
        fork.InPastOf [4, 5, 6] h → fork.sortsBefore h 4 = true := by
  have finality : fork.OnRoot forkRules.finalityPoint := onRoot_fork 1 (by decide)
  obtain ⟨fuel, outcome, returns, best, _⟩ := sinkSearchAlgorithm_best fork_rooted
    fork_weighted forkMinted_reached [4, 5, 6] finality
  have found : ((sinkSearchAlgorithm node fork forkMinted.virtual
      forkRules 9 (.fromSink forkMinted.virtual forkMinted.stores)
      [4, 5, 6]).bind fun outcome => outcome.toOption.map fun found => (found.1, found.2.1)) =
        some (4, [2]) := by decide +kernel
  obtain ⟨outcome', ran, found⟩ := Option.bind_eq_some_iff.mp found
  have same : outcome = outcome' := by
    have later := returns (fuel + 9) (by omega)
    exact Option.some.inj (later.symm.trans (sinkSearchAlgorithm_mono (by omega) ran))
  rcases outcome' with failure | ⟨sink, candidates, walk⟩
  · cases found
  · obtain ⟨rfl, rfl⟩ : sink = 4 ∧ candidates = [2] := by simpa [Except.toOption] using found
    obtain ⟨good, _, highest⟩ := best _ _ walk same
    exact ⟨⟨walk, ran⟩, good, highest⟩

/-! ## A whole resolution -/

section Resolve

variable {M : Type} {V : VirtualProcessor M} {D : Dag} {start : List Transaction}
  {origin : ChainTip M} {R : SinkRules} {node : NodeState M}

/-- `finality_anchor_guard`: the latest anchor, unless the sink has moved on too far from it. -/
def finalityAnchorGuard (P : FinalityAnchorParams) (latest : Option StoredAnchor)
    (sinkDaaScore : UInt64) : Option Hash := do
  let _ ← P.trustees
  let latest ← latest
  if saturatingSub sinkDaaScore latest.anchoredDaaScore > P.stalenessBound sinkDaaScore then none
  else some latest.anchoredBlock

/-- The rules a node is under when it resolves virtual. -/
def NodeState.sinkRules (node : NodeState M) (D : Dag) (P : FinalityAnchorParams)
    (latest : Option StoredAnchor) (finalityPoint : Hash) (mergeDepthRoot : Hash → Hash) : SinkRules :=
  ⟨finalityPoint, finalityAnchorGuard P latest (D.header node.virtual.sink).daaScore, mergeDepthRoot⟩

/-- `resolve_virtual`: the search among the body tips over the finality point, then virtual over the
sink. Which blocks virtual merges and its DAA score are given. -/
def NodeState.resolve (V : VirtualProcessor M) (D : Dag) (node : NodeState M) (R : SinkRules)
    (fuel : Nat) (bodyTips : List Hash) (mergeset : List Block) (daaScore : UInt64) :
    Option (Outcome Empty (NodeState M)) :=
  (sinkSearchAlgorithm V D node.virtual R fuel (.fromSink node.virtual node.stores)
    (bodyTips.filter (D.isDagAncestorOf R.finalityPoint))).map fun outcome => do
      let (_, _, walk) ← outcome
      return ⟨← commitVirtualState V D node.virtual walk mergeset daaScore, walk.stores⟩

/-- No block with the finality point on its chain is lost with the tips that are left out. -/
theorem Dag.Weighted.inPastOf_filter (weighted : D.Weighted) {finalityPoint h : Hash}
    (finality : D.isChainAncestorOf finalityPoint h = true) {tips : List Hash} :
    D.InPastOf (tips.filter (D.isDagAncestorOf finalityPoint)) h ↔ D.InPastOf tips h := by
  constructor
  · rintro ⟨tip, member, past⟩
    exact ⟨tip, List.mem_of_mem_filter member, past⟩
  · rintro ⟨tip, member, past⟩
    have below := weighted.past_of_chain (D.isChainAncestorOf_iff.mp finality)
    refine ⟨tip, List.mem_filter.mpr ⟨member, ?_⟩, past⟩
    exact weighted.isDagAncestorOf_iff.mpr (below.trans past)

/-- A resolution ends at the greatest admissible block in the past of the body tips. -/
theorem NodeState.resolve_best (rooted : Rooted V D start origin) (weighted : D.Weighted)
    (reached : NodeReaches V D origin node) (finalityOnRoot : D.OnRoot R.finalityPoint)
    {mergeset : List Block} (mergeable : D.Mergeable mergeset) {fuel : Nat} {bodyTips : List Hash}
    {daaScore : UInt64} {next : NodeState M}
    (resolved : node.resolve V D R fuel bodyTips mergeset daaScore = some (.ok next)) :
    next.virtual.Over V D start origin mergeset daaScore ∧
      Admissible V D start origin R next.virtual.sink ∧ D.InPastOf bodyTips next.virtual.sink ∧
      ∀ h, Admissible V D start origin R h → D.InPastOf bodyTips h → D.sortKey h ≤ D.sortKey next.virtual.sink := by
  have sound := reached.sound rooted
  have lawful : (sinkSearch V D node.virtual R).Lawful := sinkSearch_lawful weighted
  have tried : Tried V D node (.fromSink node.virtual node.stores) := ⟨[], by simp, rfl⟩
  rw [resolve, sinkSearchAlgorithm, Option.map_map, Option.map_eq_some_iff] at resolved
  obtain ⟨outcome, result, resolved⟩ := resolved
  rcases outcome with failure | ⟨sink, rest, walk⟩
  · cases resolved
  · obtain ⟨⟨candidates, onRoot, done⟩, at_, good, inPast, highest⟩ :=
      lawful.run_ok (sinkSearch_sound rooted weighted sound finalityOnRoot) tried result
    obtain ⟨_, found, resolved⟩ := Outcome.bind_eq_ok.mp resolved
    cases found
    obtain ⟨virtual', committed, resolved⟩ := Outcome.bind_eq_ok.mp resolved
    cases resolved
    have step : node.resolveVirtual V D candidates mergeset daaScore = .ok ⟨virtual', walk.stores⟩ :=
      Outcome.bind_eq_ok.mpr ⟨walk, done, Outcome.bind_eq_ok.mpr ⟨virtual', committed, rfl⟩⟩
    obtain rfl : virtual'.sink = sink := (commitVirtualState_sink committed).trans at_
    refine ⟨(sound.resolveVirtual rooted onRoot mergeable step).2, good,
      (weighted.inPastOf_filter good.finality).mp inPast, fun h admissible inPast => ?_⟩
    exact highest h admissible ((weighted.inPastOf_filter admissible.finality).mpr inPast)

theorem NodeState.resolve_ends (weighted : D.Weighted) (R : SinkRules) (node : NodeState M)
    (bodyTips : List Hash) (mergeset : List Block) (daaScore : UInt64) :
    ∃ fuel, ∀ more, fuel ≤ more → (node.resolve V D R more bodyTips mergeset daaScore).isSome := by
  have lawful : (sinkSearch V D node.virtual R).Lawful := sinkSearch_lawful weighted
  obtain ⟨fuel, outcome, result⟩ := lawful.ends
    (bodyTips.filter (D.isDagAncestorOf R.finalityPoint)) (.fromSink node.virtual node.stores)
  refine ⟨fuel, fun more le => ?_⟩
  rw [resolve, Option.isSome_map, sinkSearchAlgorithm_mono le (by rw [sinkSearchAlgorithm, result]; rfl)]
  rfl

/-- Nodes converge. Whatever two nodes went through, with the same body tips, rules and blocks to merge both
resolutions end, and if neither panics then at the same sink with the same outputs and notes. -/
theorem resolutions_converge (rooted : Rooted V D start origin) (weighted : D.Weighted)
    {node' : NodeState M} (reached : NodeReaches V D origin node)
    (reached' : NodeReaches V D origin node') (finalityOnRoot : D.OnRoot R.finalityPoint)
    {mergeset : List Block} (mergeable : D.Mergeable mergeset) (bodyTips : List Hash) (daaScore : UInt64) :
    (∃ fuel, ∀ more, fuel ≤ more → (node.resolve V D R more bodyTips mergeset daaScore).isSome ∧
        (node'.resolve V D R more bodyTips mergeset daaScore).isSome) ∧ ∀ fuel fuel' next next',
        node.resolve V D R fuel bodyTips mergeset daaScore = some (.ok next) →
        node'.resolve V D R fuel' bodyTips mergeset daaScore = some (.ok next') →
        next.virtual.sink = next'.virtual.sink ∧ next.virtual.ledger = next'.virtual.ledger := by
  constructor
  · obtain ⟨fuel, ends⟩ := node.resolve_ends (V := V) weighted R bodyTips mergeset daaScore
    obtain ⟨fuel', ends'⟩ := node'.resolve_ends (V := V) weighted R bodyTips mergeset daaScore
    exact ⟨fuel + fuel', fun more le => ⟨ends more (by omega), ends' more (by omega)⟩⟩
  · intro fuel fuel' next next' resolved resolved'
    obtain ⟨put, good, inPast, highest⟩ :=
      NodeState.resolve_best rooted weighted reached finalityOnRoot mergeable resolved
    obtain ⟨put', good', inPast', highest'⟩ :=
      NodeState.resolve_best rooted weighted reached' finalityOnRoot mergeable resolved'
    -- Each sink was a candidate of the other search; the key of a block ends with its hash.
    have same := le_antisymm (highest' _ good inPast) (highest _ good' inPast')
    have sink : next.virtual.sink = next'.virtual.sink :=
      BitVec.eq_of_toNat_eq (Prod.ext_iff.mp (toLex.injective same)).2
    obtain ⟨_, tip, ctx, settles, walked, ledger⟩ := put
    obtain ⟨_, tip', ctx', settles', walked', ledger'⟩ := put'
    rw [← sink] at settles'
    obtain ⟨-, rfl⟩ := settles.unique settles'
    cases walked.symm.trans walked'
    exact ⟨sink, ledger.trans ledger'.symm⟩

end Resolve

open Sample in
/-- A node over block 6 and one that is still at genesis both end at block 4. -/
theorem resolutions_converge_fork : ∃ next next',
    forkMinted.resolve node fork forkRules 9 [4, 5, 6] [] 30 = some (.ok next) ∧
      forkStart.resolve node fork forkRules 9 [4, 5, 6] [] 30 = some (.ok next') ∧
      next.virtual.sink = 4 ∧ next.virtual.ledger = next'.virtual.ledger := by
  have ends (from' : NodeState Unit) (sink : ((from'.resolve node fork forkRules 9 [4, 5, 6] [] 30).bind
      fun outcome => outcome.toOption.map fun next => next.virtual.sink) = some 4) : ∃ next,
      from'.resolve node fork forkRules 9 [4, 5, 6] [] 30 = some (.ok next) ∧ next.virtual.sink = 4 := by
    obtain ⟨outcome, resolved, found⟩ := Option.bind_eq_some_iff.mp sink
    rcases outcome with failure | next
    · cases found
    · exact ⟨next, resolved, Option.some.inj found⟩
  obtain ⟨next, resolved, sink⟩ := ends forkMinted (by decide +kernel)
  obtain ⟨next', resolved', -⟩ := ends forkStart (by decide +kernel)
  have nothing : fork.Mergeable [] := fun _ member => nomatch member
  obtain ⟨-, same⟩ := resolutions_converge (R := forkRules) fork_rooted fork_weighted forkMinted_reached
    (.start forkStart_starts) (onRoot_fork 1 (by decide)) nothing [4, 5, 6] 30
  exact ⟨next, next', resolved, resolved', sink, (same 9 9 next next' resolved resolved').2⟩

end Marigold.Consensus
