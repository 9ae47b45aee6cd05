import Marigold.Smt.Streaming

/-!
# Streams that fail

What a streaming builder has written when the number of leaves is not the announced one. Nodes go to
the sink as soon as two entries are merged, so that a stream of the wrong length leaves nothing only if
no merge was ever due.
-/

namespace Marigold.Smt

open Lib Lib.Bits

/-- The depths at which each key leaves the path of the one before. -/
def divergences : List Hash → List Nat
  | a :: b :: rest => divergenceDepth a b :: divergences (b :: rest)
  | _ => []

/-- Every key shares a longer beginning with the next one than with the one before. -/
def Deepening (keys : List Hash) : Prop := (divergences keys).IsChain (· < ·)

instance (keys : List Hash) : Decidable (Deepening keys) :=
  inferInstanceAs (Decidable (List.IsChain _ _))

/-! ## The sink grows -/

section Sink

variable {H : SmtHasher} {sink : Writes} {state : Sealing}

theorem mergeChainWithEmpty_kept (some' : sink ≠ []) (key : Hash) (toDepth count : Nat) (hash : Hash) :
    (MergeSink.mergeChainWithEmpty H key toDepth count hash sink).2 ≠ [] := by
  induction count generalizing hash sink with
  | zero => exact some'
  | succ count ih => exact ih (by simp) _

theorem chainUp_kept (some' : sink ≠ []) (current : StackEntry) (targetDepth : Nat) :
    (chainUp H current sink targetDepth).2 ≠ [] := by
  unfold chainUp
  split
  · exact some'
  · split
    · exact some'
    · simp only
      split
      · exact mergeChainWithEmpty_kept some' _ _ _ _
      · exact some'

theorem mergePair_sink_ne (current left : StackEntry) (sink : Writes) : (mergePair H current left sink).2 ≠ [] := by
  simp [mergePair, MergeSink.merge]

theorem sealUpTo_kept (some' : sink ≠ []) (targetDepth : Nat) (stack : List StackEntry) (current : StackEntry)
    (rootWritten : Bool) : (sealUpTo H targetDepth stack current sink rootWritten).sink ≠ [] := by
  induction stack generalizing current sink rootWritten with
  | nil => exact chainUp_kept some' current targetDepth
  | cons top rest ih =>
    unfold sealUpTo
    split
    · exact ih (mergePair_sink_ne _ _ _) _ _
    · exact chainUp_kept some' current targetDepth

theorem sealUpTo_merges {targetDepth : Nat} {top : StackEntry} (deep : targetDepth ≤ top.depth)
    (rest : List StackEntry) (current : StackEntry) (sink : Writes) (rootWritten : Bool) :
    (sealUpTo H targetDepth (top :: rest) current sink rootWritten).sink ≠ [] := by
  rw [sealUpTo, if_pos deep]
  exact sealUpTo_kept (mergePair_sink_ne _ _ _) _ _ _ _

theorem sealUpTo_rootWritten {rootWritten : Bool} (written : rootWritten → sink ≠ []) (targetDepth : Nat)
    (stack : List StackEntry) (current : StackEntry)
    (after : (sealUpTo H targetDepth stack current sink rootWritten).rootWritten) :
    (sealUpTo H targetDepth stack current sink rootWritten).sink ≠ [] := by
  cases stack with
  | nil => exact chainUp_kept (written after) current targetDepth
  | cons top rest =>
    by_cases deep : targetDepth ≤ top.depth
    · exact sealUpTo_merges deep rest current sink rootWritten
    · rw [sealUpTo, if_neg deep] at after ⊢
      exact chainUp_kept (written after) current targetDepth

section

variable (written : state.rootWritten → state.sink ≠ [])

include written

theorem finalize_sink_ne : ((StreamingSmtBuilder.ofSealing state 0).finalize H).sink ≠ [] := by
  have sealing := sealUpTo_rootWritten (H := H) written 0 state.stack state.current
  dsimp only [StreamingSmtBuilder.finalize, StreamingSmtBuilder.ofSealing]
  generalize sealUpTo H 0 state.stack state.current state.sink state.rootWritten = done at sealing ⊢
  split
  · simp
  · split
    next after => exact sealing after
    · simp [MergeSink.mergeChainWithEmpty]

theorem advance_rootWritten (leaf : CollapsedLeaf) (after : (advance H state leaf).rootWritten) :
    (advance H state leaf).sink ≠ [] :=
  sealUpTo_rootWritten written _ _ _ after

theorem run_rootWritten (leaves : List CollapsedLeaf) (after : (leaves.foldl (advance H) state).rootWritten) :
    (leaves.foldl (advance H) state).sink ≠ [] := by
  induction leaves generalizing state with
  | nil => exact written after
  | cons leaf rest ih => exact ih (advance_rootWritten written leaf) after

end

theorem run_kept (some' : state.sink ≠ []) (leaves : List CollapsedLeaf) :
    (leaves.foldl (advance H) state).sink ≠ [] := by
  induction leaves generalizing state with
  | nil => exact some'
  | cons leaf rest ih => exact ih (sealUpTo_kept some' _ _ _ _)

theorem divergenceDepth_le (a b : Hash) : divergenceDepth a b ≤ 256 := by
  unfold divergenceDepth
  cases found : (List.range 256).find? fun d => bitAt a d != bitAt b d with
  | none => exact le_refl _
  | some d => exact le_of_lt (List.mem_range.mp (List.mem_of_find?_eq_some found))

theorem chainUp_leaf (H : SmtHasher) (leaf : CollapsedLeaf) (key : Hash) :
    chainUp H (leafEntry H leaf) [] (divergenceDepth leaf.laneKey key) =
      ({ leafEntry H leaf with depth := divergenceDepth leaf.laneKey key }, []) := by
  unfold chainUp
  split
  next far =>
    have equal := le_antisymm far (divergenceDepth_le leaf.laneKey key)
    rw [← equal]
  · rfl

/-- A run writes nothing exactly if no leaf had to be merged with the one before. -/
theorem run_sink_eq_nil (stack : List StackEntry) (leaf : CollapsedLeaf) (rootWritten : Bool)
    (leaves : List CollapsedLeaf) : (leaves.foldl (advance H) ⟨leafEntry H leaf, stack, [], rootWritten⟩).sink = [] ↔
      ((stack.head?.map StackEntry.depth).toList ++
        divergences (leaf.laneKey :: leaves.map CollapsedLeaf.laneKey)).IsChain (· < ·) := by
  induction leaves generalizing stack leaf rootWritten with
  | nil =>
    cases stack with
    | nil => simp [divergences]
    | cons top rest => simp [divergences]
  | cons next rest ih =>
    rw [List.map_cons, divergences, List.foldl_cons]
    -- the new leaf is pushed on the whole stack unless its path leaves at or above the top
    have pushed : (∀ top ∈ stack.head?, top.depth < divergenceDepth leaf.laneKey next.laneKey) →
        advance H ⟨leafEntry H leaf, stack, [], rootWritten⟩ next = ⟨leafEntry H next, { leafEntry H leaf with
            depth := divergenceDepth leaf.laneKey next.laneKey } :: stack, [], rootWritten⟩ := by
      intro shallow
      have drained : drain H [] (leafEntry H leaf) [] rootWritten = (leafEntry H leaf, [], rootWritten) := rfl
      have sealing := sealUpTo_append (fun e (member : e ∈ []) => nomatch member) shallow drained
      rw [List.nil_append, chainUp_leaf] at sealing
      change sealUpTo H (divergenceDepth (leafEntry H leaf).representativeKey next.laneKey) stack
        (leafEntry H leaf) [] rootWritten = _ at sealing
      simp only [advance, sealing]
    cases stack with
    | nil =>
      rw [pushed (by simp), ih]
      rfl
    | cons top below =>
      by_cases shallow : top.depth < divergenceDepth leaf.laneKey next.laneKey
      · rw [pushed (by simpa using shallow), ih]
        simp [shallow]
      · have merged : (advance H ⟨leafEntry H leaf, top :: below, [], rootWritten⟩ next).sink ≠ [] :=
          sealUpTo_merges (not_lt.mp shallow) _ _ _ _
        exact iff_of_false (run_kept merged rest) (by simp [shallow])

end Sink

/-! ## The outcomes of a stream -/

section Outcomes

open StreamingSmtBuilder

variable {H : SmtHasher} {leaves : List CollapsedLeaf} {remaining expectedCount : Nat}

section

variable (state : Sealing)
  (ascending : (state.current.representativeKey :: leaves.map CollapsedLeaf.laneKey).Pairwise (· < ·))

include state ascending

/-- No more leaves than announced: all of them are taken. -/
theorem feedAll_settled (enough : leaves.length ≤ remaining) : feedAll H (settled H state remaining) leaves =
      (none, settled H (leaves.foldl (advance H) state) (remaining - leaves.length), leaves.length) := by
  induction leaves generalizing state remaining with
  | nil => rfl
  | cons leaf rest ih =>
    obtain ⟨remaining, rfl⟩ : ∃ k, remaining = k + 1 := ⟨remaining - 1, by simp at enough; omega⟩
    rw [List.map_cons, List.pairwise_cons] at ascending
    have first := ascending.1 leaf.laneKey List.mem_cons_self
    have fed : feed H (settled H state (remaining + 1)) leaf = _ := feed_ofSealing H first remaining
    have later := ih (advance H state leaf) ascending.2 (Nat.le_of_succ_le_succ enough)
    simp only [feedAll, fed, later, List.foldl_cons, List.length_cons, Nat.add_sub_add_right]

/-- More leaves than announced: the builder is finalized and refuses the next one. -/
theorem feedAll_settled_over (excess : remaining < leaves.length) : feedAll H (settled H state remaining) leaves =
      (some .alreadyFinalized, settled H ((leaves.take remaining).foldl (advance H) state) 0, remaining + 1) := by
  induction leaves generalizing state remaining with
  | nil => cases excess
  | cons leaf rest ih =>
    cases remaining with
    | zero =>
      have final : ((ofSealing state 0).finalize H).root.isSome := finalize_root H _
      have refused : feed H (settled H state 0) leaf = .error .alreadyFinalized := if_pos final
      simp only [feedAll, refused, List.take_zero, List.foldl_nil]
    | succ remaining =>
      rw [List.map_cons, List.pairwise_cons] at ascending
      have first := ascending.1 leaf.laneKey List.mem_cons_self
      have fed : feed H (settled H state (remaining + 1)) leaf = _ := feed_ofSealing H first remaining
      have later := ih (advance H state leaf) ascending.2 (Nat.lt_of_succ_lt_succ excess)
      simp only [feedAll, fed, later, List.take_succ_cons, List.foldl_cons]

end

theorem feedAll_exact (H : SmtHasher) (ascending : Ascending leaves) :
    ∃ builder, feedAll H (.new H leaves.length) leaves = (none, builder, leaves.length) ∧ builder.root.isSome := by
  cases leaves with
  | nil => exact ⟨.new H 0, rfl, rfl⟩
  | cons first rest =>
    have run := feedAll_settled (H := H) ⟨leafEntry H first, [], [], false⟩
      (List.pairwise_map.mpr ascending) (le_refl rest.length)
    rw [Nat.sub_self] at run
    have final : (settled H (rest.foldl (advance H) ⟨leafEntry H first, [], [], false⟩) 0).root.isSome := by
      rw [settled, if_pos rfl]
      exact finalize_root H _
    refine ⟨_, ?_, final⟩
    simp only [feedAll, List.length_cons, feed_new, run]

theorem feedAll_unannounced (H : SmtHasher) (some' : leaves ≠ []) :
    feedAll H (.new H 0) leaves = (some .alreadyFinalized, .new H 0, 1) := by
  cases leaves with
  | nil => exact absurd rfl some'
  | cons first rest => rfl

/-- More leaves than announced: the tree of the first ones has been written. -/
theorem feedAll_over (H : SmtHasher) (ascending : Ascending leaves) (positive : 0 < expectedCount)
    (excess : expectedCount < leaves.length) : ∃ builder, feedAll H (.new H expectedCount) leaves =
        (some .alreadyFinalized, builder, expectedCount + 1) ∧ builder.sink ≠ [] := by
  obtain ⟨remaining, rfl⟩ : ∃ k, expectedCount = k + 1 := ⟨expectedCount - 1, by omega⟩
  cases leaves with
  | nil => cases excess
  | cons first rest =>
    have run := feedAll_settled_over (H := H) ⟨leafEntry H first, [], [], false⟩
      (List.pairwise_map.mpr ascending) (Nat.lt_of_succ_lt_succ excess)
    have unwritten : (⟨leafEntry H first, [], [], false⟩ : Sealing).rootWritten →
        (⟨leafEntry H first, [], [], false⟩ : Sealing).sink ≠ [] := fun written => by cases written
    refine ⟨_, ?_, finalize_sink_ne (H := H) (run_rootWritten (H := H) unwritten (rest.take remaining))⟩
    simp only [feedAll, feed_new, run]
    rfl

/-- Fewer leaves than announced: what was merged on the way has been written. -/
theorem feedAll_short (H : SmtHasher) (ascending : Ascending leaves) (short : leaves.length < expectedCount) :
    ∃ builder, feedAll H (.new H expectedCount) leaves = (none, builder, leaves.length) ∧ builder.root = none ∧
      (builder.sink = [] ↔ Deepening (leaves.map CollapsedLeaf.laneKey)) := by
  obtain ⟨remaining, rfl⟩ : ∃ k, expectedCount = k + 1 := ⟨expectedCount - 1, by omega⟩
  cases leaves with
  | nil => exact ⟨.new H (remaining + 1), rfl, rfl, iff_of_true rfl List.IsChain.nil⟩
  | cons first rest =>
    have fewer : rest.length < remaining := Nat.lt_of_succ_lt_succ short
    have run := feedAll_settled (H := H) ⟨leafEntry H first, [], [], false⟩
      (List.pairwise_map.mpr ascending) (le_of_lt fewer)
    have unfinished : ∀ state, settled H state (remaining - rest.length) =
        ofSealing state (remaining - rest.length) := fun state => if_neg (by omega)
    rw [unfinished] at run
    refine ⟨ofSealing (rest.foldl (advance H) ⟨leafEntry H first, [], [], false⟩)
      (remaining - rest.length), ?_, rfl, run_sink_eq_nil [] first false rest⟩
    simp only [feedAll, feed_new, run, List.length_cons]

end Outcomes

end Marigold.Smt
