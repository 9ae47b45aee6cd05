import Mathlib.Algebra.Order.Floor.Div
import Marigold.Consensus.Conservation
import Marigold.Mining.Template

/-!
# Handing out a template

From the selector the mempool builds to the check of the block body: whatever a miner is handed out in the
end, over any number of batches and rejections, against the limits on mass, lanes and gas.
-/

namespace Marigold.Mining

open Lib Consensus

variable {idOf : Transaction → TransactionId} {massOf : Transaction → Nat} {policy : Policy} {F : Frontier}
  {allTransactions txs : List Transaction} {B : BodyProcessor}

/-! ## The frontier -/

namespace Frontier

/-- Each ready transaction is there once, with its mass. -/
structure Ok (idOf : Transaction → TransactionId) (massOf : Transaction → Nat) (F : Frontier) : Prop where
  once : (F.searchTree.map fun key => idOf key.tx).Nodup
  masses : ∀ key ∈ F.searchTree, key.mass = massOf key.tx
  total : F.totalMass = (F.searchTree.map FeerateTransactionKey.mass).sum

variable {F : Frontier}

/-- What is sampled so far is in the tree, each transaction once and in the cache. -/
structure Sampled (idOf : Transaction → TransactionId) (F : Frontier) (s : SampleState) : Prop where
  inside : s.sequence ⊆ F.searchTree
  once : (s.sequence.map fun key => idOf key.tx).Nodup
  cached : ∀ key ∈ s.sequence, idOf key.tx ∈ s.cache

variable {s : SampleState} {item : FeerateTransactionKey}

theorem Sampled.push (sampled : Sampled idOf F s) (member : item ∈ F.searchTree) (fresh : idOf item.tx ∉ s.cache)
    (occupied : List SubnetworkId) :
    Sampled idOf F (SampleState.push { s with cache := idOf item.tx :: s.cache, occupied } item) := by
  refine ⟨List.append_subset.mpr ⟨sampled.inside, ?_⟩, ?_, fun key there => ?_⟩
  · simpa using member
  · rw [SampleState.push, List.map_append, List.map_singleton]
    refine List.nodup_append.mpr ⟨sampled.once, List.nodup_singleton _, ?_⟩
    rintro id there id' here rfl
    obtain ⟨key, inside, rfl⟩ := List.mem_map.mp there
    exact fresh (List.mem_singleton.mp here ▸ sampled.cached key inside)
  · rcases List.mem_append.mp there with before | now
    · exact .tail _ (sampled.cached key before)
    · rw [List.mem_singleton.mp now]
      exact .head _

theorem sampled_sampleLoop (queries : List Nat) (sampled : Sampled idOf F s) :
    Sampled idOf F (sampleLoop idOf F policy queries s) := by
  induction queries generalizing s with
  | nil => exact sampled
  | cons query queries ih =>
    rw [sampleLoop]
    split
    · split
      · exact sampled
      next item there =>
        obtain ⟨index, rfl⟩ := List.getElem?_eq_some_iff.mp there
        split
        · exact ih sampled
        next fresh =>
          dsimp only
          split
          · exact ih (sampled.push (List.getElem_mem index) fresh _)
          · split
            · exact ⟨sampled.inside, sampled.once, fun key member =>
              .tail _ (sampled.cached key member)⟩
            · exact ih (sampled.push (List.getElem_mem index) fresh _)
    · exact sampled

theorem finishIntraLaneSelection_sequence (rest : List FeerateTransactionKey) (s : SampleState) :
    ∃ taken, taken.Sublist rest ∧ (finishIntraLaneSelection rest s).sequence = s.sequence ++ taken := by
  induction rest generalizing s with
  | nil => exact ⟨[], .slnil, (List.append_nil _).symm⟩
  | cons item rest ih =>
    rw [finishIntraLaneSelection]
    split
    · obtain ⟨taken, sub, same⟩ := ih (s.push item)
      refine ⟨item :: taken, sub.cons_cons item, ?_⟩
      rw [same, SampleState.push, List.append_assoc]
      rfl
    · exact ⟨[], List.nil_sublist _, (List.append_nil _).symm⟩

theorem Sampled.empty : Sampled idOf F ⟨[], [], .new policy, [], false⟩ :=
  ⟨List.nil_subset _, List.nodup_nil, fun _ member => absurd member List.not_mem_nil⟩

/-- What the loop samples comes first, then what is taken from the lanes in use and is not in the cache. -/
theorem sampleInplace_eq (F : Frontier) (queries : List Nat) : ∃ s taken, Sampled idOf F s ∧
    F.sampleInplace idOf policy queries = s.sequence ++ taken ∧ taken.Sublist F.searchTree.reverse ∧
    ∀ key ∈ taken, idOf key.tx ∉ s.cache := by
  refine ⟨sampleLoop idOf F policy queries ⟨[], [], .new policy, [], false⟩, ?_⟩
  rw [sampleInplace]
  dsimp only
  split
  · obtain ⟨taken, sub, same⟩ := finishIntraLaneSelection_sequence _ _
    refine ⟨taken, sampled_sampleLoop queries .empty, same, sub.trans List.filter_sublist, fun key member => ?_⟩
    exact (of_decide_eq_true (List.mem_filter.mp (sub.subset member)).2).2
  · exact ⟨[], sampled_sampleLoop queries .empty, (List.append_nil _).symm, List.nil_sublist _,
      fun _ member => absurd member List.not_mem_nil⟩

theorem sampleInplace_subset (F : Frontier) (queries : List Nat) :
    F.sampleInplace idOf policy queries ⊆ F.searchTree := by
  obtain ⟨s, taken, sampled, same, sub, -⟩ := F.sampleInplace_eq queries
  rw [same]
  exact List.append_subset.mpr ⟨sampled.inside, fun key member => List.mem_reverse.mp (sub.subset member)⟩

theorem Ok.sampleInplace (ok : F.Ok idOf massOf) (queries : List Nat) :
    ((F.sampleInplace idOf policy queries).map fun key => idOf key.tx).Nodup := by
  obtain ⟨s, taken, sampled, same, sub, fresh⟩ := F.sampleInplace_eq queries
  have once : (F.searchTree.reverse.map fun key => idOf key.tx).Nodup := by
    rw [List.map_reverse]
    exact List.nodup_reverse.mpr ok.once
  rw [same, List.map_append]
  refine List.nodup_append.mpr ⟨sampled.once, once.sublist (sub.map _), ?_⟩
  -- what is taken at the end is not in the cache, and all that was sampled is
  rintro id there id' here rfl
  obtain ⟨key, inside, rfl⟩ := List.mem_map.mp there
  obtain ⟨key', inside', ids⟩ := List.mem_map.mp here
  exact fresh key' inside' (ids ▸ sampled.cached key inside)

end Frontier

theorem Frontier.Ok.buildSelector (ok : F.Ok idOf massOf) (queries : List Nat) :
    (F.buildSelector idOf policy queries).Ok idOf massOf policy [] [] := by
  unfold Frontier.buildSelector
  split
  next light =>
    refine ⟨rfl, List.Subperm.refl _, ?_, WithinLimits.nil, .inr ⟨rfl, ?_⟩⟩
    · rw [List.append_nil, List.map_reverse, List.map_reverse, List.map_map]
      exact List.nodup_reverse.mpr ok.once
    · have masses := List.map_congr_left ok.masses
      rw [ok.total, masses] at light
      rw [List.map_reverse, List.map_reverse, List.sum_reverse, List.map_map]
      exact light
  · split
    · have inside : F.sampleInplace idOf policy queries ⊆ F.searchTree := F.sampleInplace_subset queries
      have once : ((F.sampleInplace idOf policy queries).map fun key => idOf key.tx).Nodup := ok.sampleInplace queries
      have left : (SequenceSelector.new (F.sampleInplace idOf policy queries) policy).left.map Prod.snd =
          F.sampleInplace idOf policy queries := by
        simp [SequenceSelector.left, SequenceSelector.new, List.map_map, Function.comp_def]
      refine ⟨rfl, Ledger.nil, ?_, ?_, List.Subperm.refl _, fun _ member => absurd member List.not_mem_nil⟩
      · rw [left]
        exact fun key member => ok.masses key (inside member)
      · rw [left, List.append_nil, List.map_map]
        exact once
    · refine ⟨rfl, ⟨0, Nat.zero_add _, Ledger.nil⟩, ?_, ?_, List.Subperm.refl _,
        fun _ member => absurd member List.not_mem_nil⟩
      · intro key member
        exact ok.masses key ((List.append_nil F.searchTree) ▸ member)
      · change ((((F.searchTree ++ []).map FeerateTransactionKey.tx) ++ []).map idOf).Nodup
        rw [List.append_nil, List.append_nil, List.map_map]
        exact ok.once

/-! ## Transactions included by force -/

/-- Of what is kept, `ours` was included by force and `theirs` is from the inner selector, which may have
selected more than that: what is included by force is filtered out of its batches. -/
structure Forced (idOf : Transaction → TransactionId) (massOf : Transaction → Nat) (policy : Policy)
    (txs : List Transaction) (forcedIds : List TransactionId) (inner : InnerSelector)
    (ours theirs taken recent kept current : List Transaction) : Prop where
  inner_ok : inner.Ok idOf massOf policy taken recent
  kept_eq : kept.Perm (ours ++ theirs)
  inside : theirs.Subperm taken
  apart : ∀ tx ∈ theirs, idOf tx ∉ forcedIds
  once : ((txs ++ ours).map idOf).Nodup
  forced : ∀ tx ∈ txs ++ ours, idOf tx ∈ forcedIds ∧ tx.subnetworkId = SubnetworkId.finalityAnchor
  current_kept : current.Subperm kept
  current_recent : ∀ tx ∈ current, tx ∈ ours ∨ tx ∈ recent

namespace Forced

variable {txs ours theirs taken recent kept current : List Transaction} {forcedIds : List TransactionId}
  {inner : InnerSelector} {tx : Transaction}

section

variable (ok : Forced idOf massOf policy txs forcedIds inner ours theirs taken recent kept current)

include ok

theorem kept_once : (kept.map idOf).Nodup := by
  rw [(ok.kept_eq.map idOf).nodup_iff, List.map_append]
  have once := ok.once
  rw [List.map_append] at once
  obtain ⟨middle, same, sub⟩ := ok.inside
  have others : (theirs.map idOf).Nodup :=
    (same.map idOf).nodup_iff.mp (ok.inner_ok.once.sublist (sub.map idOf))
  refine List.nodup_append.mpr ⟨once.of_append_right, others, ?_⟩
  rintro id there id' here rfl
  obtain ⟨tx, member, rfl⟩ := List.mem_map.mp there
  obtain ⟨tx', member', ids⟩ := List.mem_map.mp here
  exact ok.apart tx' member' (ids ▸ (ok.forced tx (List.mem_append_right _ member)).1)

theorem select (queries : List Nat) :
    Forced idOf massOf policy [] forcedIds (inner.selectTransactions queries).1 (txs ++ ours)
      (((inner.selectTransactions queries).2.filter fun tx => idOf tx ∉ forcedIds) ++ theirs)
      ((inner.selectTransactions queries).2 ++ taken) (inner.selectTransactions queries).2
      ((txs ++ (inner.selectTransactions queries).2.filter fun tx => idOf tx ∉ forcedIds) ++ kept)
      (txs ++ (inner.selectTransactions queries).2.filter fun tx => idOf tx ∉ forcedIds) := by
  refine ⟨ok.inner_ok.select queries, ?_, ?_, fun tx member => ?_, ok.once, ok.forced,
    (List.sublist_append_left _ _).subperm, fun tx member => ?_⟩
  · rw [List.append_assoc, List.append_assoc]
    refine List.Perm.append_left txs ?_
    exact (ok.kept_eq.append_left _).trans (List.perm_append_comm_assoc _ _ _)
  · exact ((List.subperm_append_left _).mpr ok.inside).trans (List.filter_sublist.append_right taken).subperm
  · rcases List.mem_append.mp member with now | before
    · exact of_decide_eq_true (List.mem_filter.mp now).2
    · exact ok.apart tx before
  · rcases List.mem_append.mp member with forced | chosen
    · exact .inl (List.mem_append_left _ forced)
    · exact .inr (List.mem_filter.mp chosen).1

theorem other_current {other : Transaction} (member : other ∈ current.erase tx) : other ∈ current ∧ other ≠ tx := by
  obtain ⟨middle, same, sub⟩ := ok.current_kept
  have once : current.Nodup := same.nodup_iff.mp ((List.Nodup.of_map _ ok.kept_once).sublist sub)
  exact ⟨List.mem_of_mem_erase member, fun same => (once.not_mem_erase (same ▸ member))⟩

theorem reject_forced (member : tx ∈ current) (isForced : idOf tx ∈ forcedIds) :
    Forced idOf massOf policy txs (forcedIds.filter fun id => id ≠ idOf tx) inner (ours.erase tx) theirs taken
      recent (kept.erase tx) (current.erase tx) := by
  have mine : tx ∈ ours := by
    rcases List.mem_append.mp (ok.kept_eq.subset (ok.current_kept.subset member)) with ours | theirs
    · exact ours
    · exact absurd isForced (ok.apart tx theirs)
  refine ⟨ok.inner_ok, ?_, ok.inside, fun other there => ?_, ?_, fun other there => ?_,
    ok.current_kept.erase tx, fun other there => ?_⟩
  · have erased := ok.kept_eq.erase tx
    rwa [List.erase_append_left _ mine] at erased
  · exact fun still => ok.apart other there (List.mem_filter.mp still).1
  · exact ok.once.sublist ((List.Sublist.append_left List.erase_sublist _).map idOf)
  · -- the other forced transactions have other ids
    have whole := ((List.perm_cons_erase mine).append_left txs).trans List.perm_middle
    have once := ok.once
    rw [(whole.map idOf).nodup_iff, List.map_cons, List.nodup_cons] at once
    obtain ⟨id, lane⟩ := ok.forced other (whole.mem_iff.mpr (.tail _ there))
    refine ⟨List.mem_filter.mpr ⟨id, decide_eq_true fun same => ?_⟩, lane⟩
    exact once.1 (same ▸ List.mem_map_of_mem there)
  · obtain ⟨before, different⟩ := ok.other_current there
    rcases ok.current_recent other before with ours | recent
    · exact .inl ((List.mem_erase_of_ne different).mpr ours)
    · exact .inr recent

theorem reject_inner (member : tx ∈ current) (free : idOf tx ∉ forcedIds) :
    ∃ inner', inner.rejectSelection idOf (idOf tx) = some inner' ∧
      Forced idOf massOf policy txs forcedIds inner' ours (theirs.erase tx) (taken.erase tx) (recent.erase tx)
        (kept.erase tx) (current.erase tx) := by
  have notOurs : tx ∉ ours := fun there => free (ok.forced tx (List.mem_append_right _ there)).1
  obtain ⟨inner', back, inner_ok⟩ := ok.inner_ok.reject ((ok.current_recent tx member).resolve_left notOurs)
  refine ⟨inner', back, inner_ok, ?_, ok.inside.erase tx, fun other there => ?_, ok.once, ok.forced,
    ok.current_kept.erase tx, fun other there => ?_⟩
  · have erased := ok.kept_eq.erase tx
    rwa [List.erase_append_right _ notOurs] at erased
  · exact ok.apart other (List.mem_of_mem_erase there)
  · obtain ⟨before, different⟩ := ok.other_current there
    rcases ok.current_recent other before with ours | recent
    · exact .inl ours
    · exact .inr ((List.mem_erase_of_ne different).mpr recent)

theorem within : WithinLimits massOf policy (kept.filter fun tx => tx.subnetworkId ≠ SubnetworkId.finalityAnchor) := by
  have none : (ours.filter fun tx => tx.subnetworkId ≠ SubnetworkId.finalityAnchor) = [] := by
    refine List.filter_eq_nil_iff.mpr fun tx member => ?_
    simpa using (ok.forced tx (List.mem_append_right _ member)).2
  have fewer : (kept.filter fun tx => tx.subnetworkId ≠ SubnetworkId.finalityAnchor).Subperm taken := by
    refine (ok.kept_eq.filter _).subperm.trans ?_
    rw [List.filter_append, none, List.nil_append]
    exact List.filter_sublist.subperm.trans ok.inside
  exact ok.inner_ok.within.subperm fewer

end

end Forced

namespace TemplateSelector

/-- What was handed out and not rejected is `kept`; `current` of it can still be rejected. -/
def Ok (idOf : Transaction → TransactionId) (massOf : Transaction → Nat) (policy : Policy) :
    TemplateSelector → List Transaction → List Transaction → Prop
  | plain inner, kept, current => inner.Ok idOf massOf policy kept current
  | forced txs forcedIds inner, kept, current =>
    ∃ ours theirs taken recent, Forced idOf massOf policy txs forcedIds inner ours theirs taken recent kept current

variable {selector : TemplateSelector} {kept current : List Transaction} {tx : Transaction}

section

variable (ok : selector.Ok idOf massOf policy kept current)

include ok

theorem Ok.select (queries : List Nat) : (selector.selectTransactions idOf queries).1.Ok idOf massOf policy
      ((selector.selectTransactions idOf queries).2 ++ kept) (selector.selectTransactions idOf queries).2 := by
  cases selector with
  | plain inner => exact InnerSelector.Ok.select ok queries
  | forced txs forcedIds inner =>
    obtain ⟨ours, theirs, taken, recent, ok⟩ := ok
    exact ⟨_, _, _, _, ok.select queries⟩

theorem Ok.reject (member : tx ∈ current) : ∃ selector', selector.rejectSelection idOf (idOf tx) = some selector' ∧
      selector'.Ok idOf massOf policy (kept.erase tx) (current.erase tx) := by
  cases selector with
  | plain inner =>
    obtain ⟨inner', back, ok'⟩ := InnerSelector.Ok.reject ok member
    exact ⟨plain inner', by rw [rejectSelection, back]; rfl, ok'⟩
  | forced txs forcedIds inner =>
    obtain ⟨ours, theirs, taken, recent, ok⟩ := ok
    by_cases isForced : idOf tx ∈ forcedIds
    · exact ⟨forced txs (forcedIds.filter fun id => id ≠ idOf tx) inner,
        by rw [rejectSelection, if_pos isForced], _, _, _, _, ok.reject_forced member isForced⟩
    · obtain ⟨inner', back, ok'⟩ := ok.reject_inner member isForced
      exact ⟨forced txs forcedIds inner', by rw [rejectSelection, if_neg isForced, back]; rfl, _, _, _, _, ok'⟩

theorem Ok.once : (kept.map idOf).Nodup := by
  cases selector with
  | plain => exact InnerSelector.Ok.once ok
  | forced =>
    obtain ⟨ours, theirs, taken, recent, ok⟩ := ok
    exact ok.kept_once

theorem Ok.within :
    WithinLimits massOf policy (kept.filter fun tx => tx.subnetworkId ≠ SubnetworkId.finalityAnchor) := by
  cases selector with
  | plain => exact (InnerSelector.Ok.within ok).sublist List.filter_sublist
  | forced =>
    obtain ⟨ours, theirs, taken, recent, ok⟩ := ok
    exact ok.within

end

end TemplateSelector

/-! ## Runs -/

/-- A selector at work: it hands out a batch, and is told which transactions of the last batch are invalid.
`kept` is all that was handed out and not rejected, `current` what is left of the last batch. -/
inductive HandsOut (idOf : Transaction → TransactionId) (start : TemplateSelector) :
    TemplateSelector → List Transaction → List Transaction → Prop
  | start : HandsOut idOf start start [] []
  | select {selector kept current} (queries : List Nat) (before : HandsOut idOf start selector kept current) :
    HandsOut idOf start (selector.selectTransactions idOf queries).1
      ((selector.selectTransactions idOf queries).2 ++ kept) (selector.selectTransactions idOf queries).2
  | reject {selector selector' kept current tx} (before : HandsOut idOf start selector kept current)
    (member : tx ∈ current) (rejected : selector.rejectSelection idOf (idOf tx) = some selector') :
    HandsOut idOf start selector' (kept.erase tx) (current.erase tx)

theorem HandsOut.ok {start selector : TemplateSelector} {kept current : List Transaction}
    (run : HandsOut idOf start selector kept current) (ok : start.Ok idOf massOf policy [] []) :
    selector.Ok idOf massOf policy kept current := by
  induction run with
  | start => exact ok
  | select queries _ ih => exact ih.select queries
  | reject _ member rejected ih =>
    obtain ⟨selector', back, ok'⟩ := ih.reject member
    cases back.symm.trans rejected
    exact ok'

/-- The transactions of the mempool, and its frontier. -/
structure PoolOk (idOf : Transaction → TransactionId) (massOf : Transaction → Nat)
    (allTransactions : List Transaction) (F : Frontier) : Prop where
  once : (allTransactions.map idOf).Nodup
  frontier : F.Ok idOf massOf

theorem PoolOk.buildSelector (pool : PoolOk idOf massOf allTransactions F) (queries : List Nat) :
    (buildSelector idOf allTransactions F policy queries).Ok idOf massOf policy [] [] := by
  have inner : (F.buildSelector idOf policy queries).Ok idOf massOf policy [] [] :=
    pool.frontier.buildSelector queries
  unfold Mining.buildSelector
  dsimp only
  split
  · exact inner
  · refine ⟨[], [], [], [], inner, .nil, List.Subperm.refl _, fun _ member => absurd member List.not_mem_nil, ?_,
      fun tx member => ?_, List.Subperm.refl _, fun _ member => absurd member List.not_mem_nil⟩
    · rw [List.append_nil]
      exact pool.once.sublist (List.filter_sublist.map idOf)
    · rw [List.append_nil] at member
      exact ⟨List.mem_map_of_mem member, of_decide_eq_true (List.mem_filter.mp member).2⟩

theorem buildSelector_plain (F : Frontier) (queries : List Nat)
    (none : ∀ tx ∈ allTransactions, tx.subnetworkId ≠ SubnetworkId.finalityAnchor) :
    buildSelector idOf allTransactions F policy queries = .plain (F.buildSelector idOf policy queries) := by
  have empty : (allTransactions.filter fun tx => tx.subnetworkId = SubnetworkId.finalityAnchor) = [] :=
    List.filter_eq_nil_iff.mpr fun tx member => by simpa using none tx member
  rw [Mining.buildSelector]
  simp only [empty, List.isEmpty_nil, if_true]

/-- Without transactions to include by force, nothing but the inner selector is at work. -/
theorem HandsOut.plain {inner : InnerSelector} {selector : TemplateSelector} {kept current : List Transaction}
    (run : HandsOut idOf (.plain inner) selector kept current) : ∃ inner', selector = .plain inner' := by
  induction run with
  | start => exact ⟨inner, rfl⟩
  | select queries _ ih =>
    obtain ⟨inner', rfl⟩ := ih
    exact ⟨_, rfl⟩
  | reject _ _ rejected ih =>
    obtain ⟨inner', rfl⟩ := ih
    rw [TemplateSelector.rejectSelection, Option.map_eq_some_iff] at rejected
    obtain ⟨inner'', -, rfl⟩ := rejected
    exact ⟨inner'', rfl⟩

/-! ## Where the transactions are from -/

section Offers

variable {P : Transaction → Prop}

theorem SequenceSelector.foldl_visit_from {rest : List (Nat × FeerateTransactionKey)} {s : SequenceSelector}
    (selected : ∀ entry ∈ s.selectedVec, P entry.2.tx) (left : ∀ entry ∈ rest, P entry.2.tx) :
    (rest.foldl visit s).inputSequence = s.inputSequence ∧ ∀ entry ∈ (rest.foldl visit s).selectedVec, P entry.2.tx := by
  induction rest generalizing s with
  | nil => exact ⟨rfl, selected⟩
  | cons entry rest ih =>
    obtain ⟨first, left⟩ := List.forall_mem_cons.mp left
    rw [List.foldl_cons]
    rcases s.visit_cases entry with same | ⟨lanes, -, -, picks⟩
    · rw [same]
      exact ih selected left
    · rw [picks]
      refine ih (s := { s with lanes, totalSelectedMass := s.totalSelectedMass + entry.2.mass,
                               selectedVec := s.selectedVec ++ [entry] }) (fun other member => ?_) left
      rcases List.mem_append.mp member with old | new
      · exact selected other old
      · exact List.mem_singleton.mp new ▸ first

/-- What is still to be drawn, deferred or selected. -/
structure MutatingTreeSelector.From (P : Transaction → Prop) (s : MutatingTreeSelector) : Prop where
  tree : ∀ key ∈ s.tree, P key.tx
  deferred : ∀ key ∈ s.massDeferred, P key.tx
  selected : ∀ key ∈ s.selectedVec, P key.tx

theorem MutatingTreeSelector.From.drawLoop {s : MutatingTreeSelector} (offers : s.From P) (fuel : Nat)
    (queries : List Nat) (nulls : Nat) : (MutatingTreeSelector.drawLoop fuel queries nulls s).From P := by
  induction fuel generalizing s queries nulls with
  | zero => exact offers
  | succ fuel ih =>
    rw [MutatingTreeSelector.drawLoop]
    split
    · dsimp only
      split
      · exact offers
      next candidate there =>
        have drawn := offers.tree candidate (List.mem_of_getElem? there)
        have tree : ∀ key ∈ s.tree.eraseIdx (queries.headD 0 % s.tree.length), P key.tx :=
          fun key member => offers.tree key (List.mem_of_mem_eraseIdx member)
        have more : ∀ keys : List FeerateTransactionKey, (∀ key ∈ keys, P key.tx) →
            ∀ key ∈ keys ++ [candidate], P key.tx := by
          intro keys old key member
          rcases List.mem_append.mp member with before | new
          · exact old key before
          · exact List.mem_singleton.mp new ▸ drawn
        refine ih ?_ _ _
        rcases MutatingTreeSelector.visit_cases { s with tree := s.tree.eraseIdx (queries.headD 0 % s.tree.length) }
          candidate with same | same | ⟨lanes, -, -, same⟩
        · rw [same]
          exact ⟨tree, more _ offers.deferred, offers.selected⟩
        · rw [same]
          exact ⟨tree, offers.deferred, offers.selected⟩
        · rw [same]
          exact ⟨tree, offers.deferred, more _ offers.selected⟩
    · exact offers

/-- All that the selector can still hand out is in `P`. -/
def InnerSelector.From (P : Transaction → Prop) : InnerSelector → Prop
  | takeAll _ txs => ∀ tx ∈ txs, P tx
  | sequence s => ∀ entry ∈ s.inputSequence, P entry.2.tx
  | tree s => (∀ key ∈ s.tree, P key.tx) ∧ ∀ key ∈ s.massDeferred, P key.tx

theorem InnerSelector.From.select {inner : InnerSelector} (offers : inner.From P) (queries : List Nat) :
    (inner.selectTransactions queries).1.From P ∧ ∀ tx ∈ (inner.selectTransactions queries).2, P tx := by
  cases inner with
  | takeAll policy txs =>
    exact ⟨fun _ member => (nomatch member), fun tx member => offers tx ((takeAll_sublist policy ∅ txs).subset member)⟩
  | sequence s =>
    have input : ∀ entry ∈ s.inputSequence.filter fun entry => entry.1 ∉ s.selectedVec.map Prod.fst, P entry.2.tx :=
      fun entry member => offers entry (List.mem_filter.mp member).1
    obtain ⟨same, selected⟩ := SequenceSelector.foldl_visit_from (P := P) (s := { s with
      inputSequence := s.inputSequence.filter fun entry => entry.1 ∉ s.selectedVec.map Prod.fst
      selectedVec := [], selectedMap := none }) (fun _ member => (nomatch member)) input
    refine ⟨fun entry member => input entry ?_, fun tx member => ?_⟩
    · rw [← show _ = s.inputSequence.filter _ from same]
      exact member
    obtain ⟨entry, there, rfl⟩ := List.mem_map.mp member
    exact selected entry there
  | tree s =>
    have restored : MutatingTreeSelector.From P { s with
        tree := s.tree ++ s.massDeferred.filter fun candidate => candidate.mass ≤ s.gap
        massDeferred := [], selectedVec := [], selectedMap := none } := by
      refine ⟨fun key member => ?_, fun _ member => (nomatch member), fun _ member => (nomatch member)⟩
      rcases List.mem_append.mp member with left | deferred
      · exact offers.1 key left
      · exact offers.2 key (List.mem_filter.mp deferred).1
    have drawn := restored.drawLoop (s.tree ++ s.massDeferred.filter fun candidate => candidate.mass ≤ s.gap).length
      queries 0
    refine ⟨⟨drawn.tree, drawn.deferred⟩, fun tx member => ?_⟩
    obtain ⟨key, there, rfl⟩ := List.mem_map.mp member
    exact drawn.selected key there

theorem InnerSelector.From.reject {idOf : Transaction → TransactionId} {inner inner' : InnerSelector}
    (offers : inner.From P) {id : TransactionId} (rejected : inner.rejectSelection idOf id = some inner') :
    inner'.From P := by
  cases inner with
  | takeAll policy txs =>
    cases rejected
    exact offers
  | sequence s =>
    obtain ⟨s', back, rfl⟩ := Option.map_eq_some_iff.mp rejected
    simp only [SequenceSelector.rejectSelection] at back
    split at back
    · cases back
    · obtain ⟨lanes, -, rfl⟩ := Option.map_eq_some_iff.mp back
      exact offers
  | tree s =>
    obtain ⟨s', back, rfl⟩ := Option.map_eq_some_iff.mp rejected
    simp only [MutatingTreeSelector.rejectSelection] at back
    split at back
    · cases back
    · obtain ⟨lanes, -, rfl⟩ := Option.map_eq_some_iff.mp back
      exact offers

def TemplateSelector.From (P : Transaction → Prop) : TemplateSelector → Prop
  | plain inner => inner.From P
  | forced txs _ inner => (∀ tx ∈ txs, P tx) ∧ inner.From P

theorem Frontier.buildSelector_from {F : Frontier} (queries : List Nat) (ready : ∀ key ∈ F.searchTree, P key.tx) :
    (F.buildSelector idOf policy queries).From P := by
  rw [buildSelector]
  split
  · intro tx member
    obtain ⟨key, there, rfl⟩ := List.mem_map.mp member
    exact ready key (List.mem_reverse.mp there)
  · split
    · intro entry member
      obtain ⟨sampled, there, rfl⟩ := List.mem_map.mp member
      exact ready _ (F.sampleInplace_subset queries (List.fst_mem_of_mem_zipIdx there))
    · exact ⟨ready, fun _ member => nomatch member⟩

theorem buildSelector_from {allTransactions : List Transaction} {F : Frontier} (queries : List Nat)
    (ready : ∀ key ∈ F.searchTree, P key.tx)
    (anchors : ∀ tx ∈ allTransactions, tx.subnetworkId = SubnetworkId.finalityAnchor → P tx) :
    (buildSelector idOf allTransactions F policy queries).From P := by
  simp only [buildSelector]
  split
  · exact Frontier.buildSelector_from queries ready
  · refine ⟨fun tx member => ?_, Frontier.buildSelector_from queries ready⟩
    have anchor := List.mem_filter.mp member
    exact anchors tx anchor.1 (of_decide_eq_true anchor.2)

theorem HandsOut.from {start selector : TemplateSelector} {kept current : List Transaction}
    (run : HandsOut idOf start selector kept current) (offers : start.From P) :
    selector.From P ∧ ∀ tx ∈ kept, P tx := by
  induction run with
  | start => exact ⟨offers, fun _ member => (nomatch member)⟩
  | @select selector kept current queries _ ih =>
    have batch : (selector.selectTransactions idOf queries).1.From P ∧
        ∀ tx ∈ (selector.selectTransactions idOf queries).2, P tx := by
      cases selector with
      | plain inner => exact InnerSelector.From.select ih.1 queries
      | forced txs forcedIds inner =>
        obtain ⟨later, drawn⟩ := InnerSelector.From.select ih.1.2 queries
        refine ⟨⟨fun _ member => (nomatch member), later⟩, fun tx member => ?_⟩
        rcases List.mem_append.mp member with ours | theirs
        · exact ih.1.1 tx ours
        · exact drawn tx (List.mem_filter.mp theirs).1
    refine ⟨batch.1, fun tx member => ?_⟩
    rcases List.mem_append.mp member with new | old
    · exact batch.2 tx new
    · exact ih.2 tx old
  | @reject selector selector' kept current tx _ _ rejected ih =>
    refine ⟨?_, fun other member => ih.2 other (List.mem_of_mem_erase member)⟩
    cases selector with
    | plain inner =>
      obtain ⟨inner', back, rfl⟩ := Option.map_eq_some_iff.mp rejected
      exact InnerSelector.From.reject ih.1 back
    | forced txs forcedIds inner =>
      rw [TemplateSelector.rejectSelection] at rejected
      split at rejected
      · cases rejected
        exact ih.1
      · obtain ⟨inner', back, rfl⟩ := Option.map_eq_some_iff.mp rejected
        exact ⟨ih.1.1, InnerSelector.From.reject ih.1.2 back⟩

end Offers

/-! ## The check of the body -/

/-- `Mass::normalized_max`: each dimension scaled to the limit on compute mass, rounding up. -/
def normalizedMax (B : BodyProcessor) (tx : Transaction) : Nat :=
  max (tx.storageMass.toNat * B.computeMassLimit.toNat ⌈/⌉ B.storageMassLimit.toNat)
    (max (B.nonContextualMasses tx).1.toNat
      ((B.nonContextualMasses tx).2.toNat * B.computeMassLimit.toNat ⌈/⌉ B.transientMassLimit.toNat))

/-- The mempool is configured with the limits of consensus. -/
structure SameLimits (B : BodyProcessor) (policy : Policy) : Prop where
  mass : policy.maxBlockMass = B.computeMassLimit.toNat
  lanes : policy.lanesPerBlockLimit = B.lanesPerBlock
  gas : policy.gasPerLaneLimit = B.gasPerLane.toNat
  compute_pos : 0 < B.computeMassLimit.toNat
  transient_pos : 0 < B.transientMassLimit.toNat
  storage_pos : 0 < B.storageMassLimit.toNat

/-- A dimension that is scaled down to the limit stays within its own. -/
theorem sum_le_of_scaled {amount : Transaction → Nat} {limit reference : Nat} (positive : 0 < reference)
    (scaled : ∀ tx, amount tx * reference ≤ limit * massOf tx) (within : (txs.map massOf).sum ≤ reference) :
    (txs.map amount).sum ≤ limit := by
  have total : (txs.map amount).sum * reference ≤ limit * (txs.map massOf).sum := by
    induction txs with
    | nil => simp
    | cons tx rest ih =>
      have least := ih (by simp only [List.map_cons, List.sum_cons] at within; omega)
      simp only [List.map_cons, List.sum_cons, Nat.add_mul, Nat.mul_add]
      exact Nat.add_le_add (scaled tx) least
  exact Nat.le_of_mul_le_mul_right (total.trans (Nat.mul_le_mul_left limit within)) positive

theorem mul_le_of_ceilDiv_le {a b c : Nat} (positive : 0 < b) (le : a ⌈/⌉ b ≤ c) : a ≤ b * c := by
  simpa [mul_comm] using (ceilDiv_le_iff_le_mul positive).mp le

/-- The transactions that occupy lanes. -/
def inLanes (txs : List Transaction) : List Transaction := txs.filter fun tx => !tx.isCoinbase

/-- What the body check asks of the transactions of a block. -/
structure BodyWithin (B : BodyProcessor) (txs : List Transaction) : Prop where
  compute : (txs.map fun tx => (B.nonContextualMasses tx).1.toNat).sum ≤ B.computeMassLimit.toNat
  transient : (txs.map fun tx => (B.nonContextualMasses tx).2.toNat).sum ≤ B.transientMassLimit.toNat
  storage : (txs.map fun tx => tx.storageMass.toNat).sum ≤ B.storageMassLimit.toNat
  lanes : (lanesOf (inLanes txs)).length ≤ B.lanesPerBlock
  gas : ∀ lane, laneGas (inLanes txs) lane ≤ B.gasPerLane.toNat

theorem SameLimits.bodyWithin (same : SameLimits B policy) (within : WithinLimits (normalizedMax B) policy txs)
    {coinbase : Transaction} (isCoinbase : coinbase.isCoinbase = true)
    (noMass : B.nonContextualMasses coinbase = (0, 0)) (noStorage : coinbase.storageMass = 0) :
    BodyWithin B (coinbase :: txs) := by
  have mass := within.mass
  rw [same.mass] at mass
  have fewer : (inLanes (coinbase :: txs)).Sublist txs := by
    rw [inLanes, List.filter_cons, isCoinbase]
    exact List.filter_sublist
  have dimension : ∀ (amount : Transaction → Nat) (limit : Nat), amount coinbase = 0 →
      (txs.map amount).sum ≤ limit → ((coinbase :: txs).map amount).sum ≤ limit := by
    intro amount limit zero le
    rwa [List.map_cons, List.sum_cons, zero, Nat.zero_add]
  refine ⟨dimension _ _ (by rw [noMass]; rfl) ?_, dimension _ _ (by rw [noMass]; rfl) ?_,
    dimension _ _ (by rw [noStorage]; rfl) ?_, ?_, fun lane => ?_⟩
  · refine (List.sum_le_sum fun tx _ => ?_).trans mass
    exact (le_max_left _ _).trans (le_max_right _ _)
  · refine sum_le_of_scaled same.compute_pos (fun tx => ?_) mass
    exact mul_le_of_ceilDiv_le same.transient_pos ((le_max_right _ _).trans (le_max_right _ _))
  · refine sum_le_of_scaled same.compute_pos (fun tx => ?_) mass
    exact mul_le_of_ceilDiv_le same.storage_pos (le_max_left _ _)
  · rw [← same.lanes]
    exact (within.sublist fewer).lanes
  · rw [← same.gas]
    exact (within.sublist fewer).gas lane

theorem saturatingAdd_of_le {a b limit : UInt64} (fits : a.toNat + b.toNat ≤ limit.toNat) :
    (Consensus.saturatingAdd a b).toNat = a.toNat + b.toNat ∧ ¬Consensus.saturatingAdd a b > limit := by
  have bound := limit.toNat_lt
  have sum : (a + b).toNat = a.toNat + b.toNat := by
    rw [UInt64.toNat_add, Nat.mod_eq_of_lt (by omega)]
  rw [Consensus.saturatingAdd, if_pos (by omega), gt_iff_lt, UInt64.lt_iff_toNat_lt, sum]
  exact ⟨rfl, by omega⟩

/-- The map holds the gas of each lane the transactions occupy. -/
def LanesCounted (lanes : Map SubnetworkId UInt64) (txs : List Transaction) : Prop :=
  ∀ lane, (lanes.lookup lane).map UInt64.toNat =
    if Quota.countIn Transaction.subnetworkId txs lane = 0 then none else some (laneGas txs lane)

namespace LanesCounted

variable {B : BodyProcessor} {mass : BlockMass} {lanes : Map SubnetworkId UInt64} {txs : List Transaction}
  {tx : Transaction}

theorem length (counted : LanesCounted lanes txs) : lanes.entries.length = (lanesOf txs).length := by
  refine Quota.length_eq_groups fun lane => ?_
  have here := counted lane
  cases found : lanes.lookup lane <;> rw [found] at here <;> split at here <;> simp_all

theorem insert (counted : LanesCounted lanes txs) {gas : UInt64}
    (exact : gas.toNat = laneGas (tx :: txs) tx.subnetworkId) :
    LanesCounted (lanes.insert tx.subnetworkId gas) (tx :: txs) := by
  intro lane
  rw [Map.lookup_insert_eq, Quota.countIn_cons]
  split
  next same =>
    subst same
    rw [if_pos rfl, if_neg (Nat.succ_ne_zero _), Option.map_some, exact]
  next other =>
    have apart : tx.subnetworkId ≠ lane := fun same => other same.symm
    rw [if_neg apart, Nat.add_zero, counted lane, laneGas, laneGas, Quota.amountIn_cons, if_neg apart, Nat.add_zero]

theorem laneGas_ok (counted : LanesCounted mass.lanes txs) (few : (lanesOf (tx :: txs)).length ≤ B.lanesPerBlock)
    (fits : laneGas (tx :: txs) tx.subnetworkId ≤ B.gasPerLane.toNat) :
    ∃ gas, Consensus.laneGas B mass tx = .ok gas ∧ gas.toNat = laneGas (tx :: txs) tx.subnetworkId := by
  have here := counted tx.subnetworkId
  have sum : laneGas (tx :: txs) tx.subnetworkId = laneGas txs tx.subnetworkId + tx.gas.toNat := by
    rw [laneGas, Quota.amountIn_cons, if_pos rfl, laneGas]
  rw [lanesOf, Quota.length_groups_cons] at few
  rw [Consensus.laneGas]
  cases found : mass.lanes.lookup tx.subnetworkId with
  | some gas =>
    rw [found] at here
    split at here
    · cases here
    · rw [Option.map_some, Option.some_inj] at here
      rw [sum, ← here] at fits ⊢
      exact ⟨_, rfl, (saturatingAdd_of_le fits).1⟩
  | none =>
    rw [found] at here
    split at here
    next empty =>
      rw [if_pos empty, ← lanesOf, ← counted.length] at few
      have none : laneGas txs tx.subnetworkId = 0 := Quota.amountIn_eq_zero empty
      refine ⟨tx.gas, if_neg (by omega), ?_⟩
      rw [sum, none, Nat.zero_add]
    · cases here

end LanesCounted

/-- What is summed so far, and the gas of each lane occupied so far. -/
structure Counted (B : BodyProcessor) (mass : BlockMass) (done : List Transaction) : Prop where
  compute : mass.compute.toNat = (done.map fun tx => (B.nonContextualMasses tx).1.toNat).sum
  transient : mass.transient.toNat = (done.map fun tx => (B.nonContextualMasses tx).2.toNat).sum
  storage : mass.storage.toNat = (done.map fun tx => tx.storageMass.toNat).sum
  lanes : LanesCounted mass.lanes (inLanes done)

namespace Counted

variable {B : BodyProcessor} {mass : BlockMass} {done : List Transaction} {tx : Transaction}

theorem addToLane (lanes : LanesCounted mass.lanes (inLanes done)) (within : BodyWithin B (tx :: done)) :
    ∃ lanes', addToLane B mass tx = .ok { mass with lanes := lanes' } ∧ LanesCounted lanes' (inLanes (tx :: done)) := by
  have few := within.lanes
  have fits := within.gas tx.subnetworkId
  rw [Consensus.addToLane]
  split
  next isCoinbase =>
    refine ⟨mass.lanes, rfl, ?_⟩
    rw [inLanes, List.filter_cons, isCoinbase]
    exact lanes
  next ordinary =>
    have one : inLanes (tx :: done) = tx :: inLanes done := by
      rw [inLanes, List.filter_cons, if_pos (by simpa using ordinary), inLanes]
    rw [one] at few fits ⊢
    obtain ⟨gas, there, exact⟩ := lanes.laneGas_ok few fits
    refine ⟨mass.lanes.insert tx.subnetworkId gas, ?_, lanes.insert exact⟩
    have small : ¬gas > B.gasPerLane := by
      rw [gt_iff_lt, UInt64.lt_iff_toNat_lt]
      omega
    rw [there]
    exact if_neg small

theorem addMass (counted : Counted B mass done) (within : BodyWithin B (tx :: done)) :
    ∃ mass', addMass B mass tx = .ok mass' ∧ Counted B mass' (tx :: done) := by
  have sum : ∀ amount : Transaction → Nat, ((tx :: done).map amount).sum = (done.map amount).sum + amount tx :=
    fun amount => by rw [List.map_cons, List.sum_cons, Nat.add_comm]
  have compute := within.compute
  have transient := within.transient
  have storage := within.storage
  rw [sum, ← counted.compute] at compute
  rw [sum, ← counted.transient] at transient
  rw [sum, ← counted.storage] at storage
  obtain ⟨compute_eq, compute_le⟩ := saturatingAdd_of_le compute
  obtain ⟨transient_eq, transient_le⟩ := saturatingAdd_of_le transient
  obtain ⟨storage_eq, storage_le⟩ := saturatingAdd_of_le storage
  let sums : BlockMass :=
    ⟨Consensus.saturatingAdd mass.compute (B.nonContextualMasses tx).1,
      Consensus.saturatingAdd mass.transient (B.nonContextualMasses tx).2,
      Consensus.saturatingAdd mass.storage tx.storageMass, mass.lanes⟩
  have passed : Consensus.addMass B mass tx = Consensus.addToLane B sums tx := by
    rw [Consensus.addMass]
    simp only [if_neg compute_le, if_neg transient_le, if_neg storage_le, sums]
  obtain ⟨lanes, added, lanes_ok⟩ := @addToLane B sums done tx counted.lanes within
  refine ⟨{ sums with lanes }, passed.trans added, ?_, ?_, ?_, lanes_ok⟩
  · rw [sum, ← counted.compute]
    exact compute_eq
  · rw [sum, ← counted.transient]
    exact transient_eq
  · rw [sum, ← counted.storage]
    exact storage_eq

end Counted

theorem BodyWithin.subperm {whole : List Transaction} (within : BodyWithin B whole) (fewer : txs.Subperm whole) :
    BodyWithin B txs := by
  obtain ⟨middle, same, sub⟩ := fewer
  have dimension : ∀ amount : Transaction → Nat, (txs.map amount).sum ≤ (whole.map amount).sum := by
    intro amount
    rw [← (same.map amount).sum_eq]
    exact (sub.map amount).sum_le_sum fun _ _ => Nat.zero_le _
  refine ⟨(dimension _).trans within.compute, (dimension _).trans within.transient,
    (dimension _).trans within.storage, ?_, fun lane => ?_⟩
  · rw [lanesOf, inLanes, ← (Quota.groups_perm (same.filter _)).length_eq]
    exact (Quota.groups_sublist (sub.filter _)).trans within.lanes
  · rw [laneGas, inLanes, ← Quota.amountIn_perm (same.filter _)]
    exact (Quota.amountIn_sublist (sub.filter _)).trans (within.gas lane)

theorem foldlM_addMass {rest done : List Transaction} {mass : BlockMass} (counted : Counted B mass done)
    (within : BodyWithin B (rest ++ done)) : ∃ mass', rest.foldlM (addMass B) mass = .ok mass' := by
  induction rest generalizing done mass with
  | nil => exact ⟨mass, rfl⟩
  | cons tx rest ih =>
    have next : (rest ++ tx :: done).Perm (tx :: rest ++ done) := List.perm_middle
    have one := ((List.sublist_append_right rest done).cons_cons tx).subperm
    obtain ⟨mass', added, counted'⟩ := counted.addMass (within.subperm one)
    obtain ⟨mass'', checked⟩ := ih counted' (within.subperm next.subperm)
    refine ⟨mass'', ?_⟩
    rw [List.foldlM_cons, added]
    exact checked

theorem BodyWithin.checkBlockMass {block : Block} (within : BodyWithin B block.transactions) :
    ∃ mass, checkBlockMass B block = .ok mass := by
  have empty : Counted B ⟨0, 0, 0, ∅⟩ [] := ⟨rfl, rfl, rfl, fun _ => rfl⟩
  exact foldlM_addMass empty (by rwa [List.append_nil])

/-! ## Templates -/

/-- Whatever is drawn and rejected: no transaction is kept twice, each transaction of the last batch can be
rejected, and what is not in the finality anchor lane is within the limits. If no transaction of the mempool is
in that lane, all that is kept is, and a block of it passes the check. -/
theorem buildSelector_within_limits {B : BodyProcessor} (same : SameLimits B policy)
    {allTransactions : List Transaction} {F : Frontier} (pool : PoolOk idOf (normalizedMax B) allTransactions F)
    {queries : List Nat} {selector : TemplateSelector} {kept current : List Transaction}
    (run : HandsOut idOf (buildSelector idOf allTransactions F policy queries) selector kept current) :
    (kept.map idOf).Nodup ∧
      (∀ tx ∈ current, ∃ selector', selector.rejectSelection idOf (idOf tx) = some selector') ∧
      WithinLimits (normalizedMax B) policy
        (kept.filter fun tx => tx.subnetworkId ≠ SubnetworkId.finalityAnchor) ∧
      ((∀ tx ∈ allTransactions, tx.subnetworkId ≠ SubnetworkId.finalityAnchor) →
        WithinLimits (normalizedMax B) policy kept ∧
          ∀ (header : Header) (coinbase : Transaction) (txs : List Transaction), coinbase.isCoinbase = true →
            B.nonContextualMasses coinbase = (0, 0) → coinbase.storageMass = 0 → txs.Perm kept →
            ∃ mass, checkBlockMass B ⟨header, coinbase :: txs⟩ = .ok mass) := by
  have ok := run.ok (pool.buildSelector queries)
  refine ⟨ok.once, fun tx member => ?_, ok.within, fun none => ?_⟩
  · obtain ⟨selector', back, -⟩ := ok.reject member
    exact ⟨selector', back⟩
  · rw [buildSelector_plain F queries none] at run
    obtain ⟨inner, rfl⟩ := run.plain
    have within := InnerSelector.Ok.within ok
    refine ⟨within, fun header coinbase txs isCoinbase noMass noStorage order => ?_⟩
    exact (same.bodyWithin (within.perm order.symm) isCoinbase noMass noStorage).checkBlockMass

namespace Sample

/-- One lane to a block, and masses that are easy to count. -/
def body : BodyProcessor :=
  { Sample.node.toBodyProcessor with
    nonContextualMasses := fun tx => if tx.isCoinbase then (0, 0) else (10, 20)
    computeMassLimit := 100
    transientMassLimit := 200
    storageMassLimit := 100
    lanesPerBlock := 1
    gasPerLane := 1000 }

def oneLane : Policy := ⟨100, 1, 1000, by decide, by decide⟩

def txId : Transaction → TransactionId := Transaction.id Sample.hashers

def mint (index : UInt32) : Transaction := Consensus.Sample.mint index (BitVec.ofNat 256 index.toNat)

def anchor : Transaction := { mint 1 with subnetworkId := SubnetworkId.finalityAnchor }

def frontier (txs : List Transaction) : Frontier := ⟨txs.map fun tx => ⟨5, 10, tx⟩, 10 * txs.length⟩

theorem sameLimits : SameLimits body oneLane := ⟨rfl, rfl, rfl, by decide, by decide, by decide⟩

theorem poolOk {txs : List Transaction} (once : (txs.map txId).Nodup)
    (masses : ∀ tx ∈ txs, normalizedMax body tx = 10) : PoolOk txId (normalizedMax body) txs (frontier txs) := by
  refine ⟨once, ?_, fun key member => ?_, ?_⟩
  · rw [frontier, List.map_map]
    exact once
  · obtain ⟨tx, inside, rfl⟩ := List.mem_map.mp member
    exact (masses tx inside).symm
  · simp [frontier, List.map_map, Function.comp_def, Nat.mul_comm]

def start (txs : List Transaction) : TemplateSelector := buildSelector txId txs (frontier txs) oneLane []

theorem handsOut_first (txs : List Transaction) : HandsOut txId (start txs) ((start txs).selectTransactions txId []).1
      ((start txs).selectTransactions txId []).2 ((start txs).selectTransactions txId []).2 := by
  have run := HandsOut.select [] (.start : HandsOut txId (start txs) (start txs) [] [])
  rwa [List.append_nil] at run

end Sample

/-- Two transactions of one lane, one of which is rejected. -/
theorem buildSelector_within_limits_mints :
    ∃ selector mass,
      HandsOut Sample.txId (Sample.start [Sample.mint 0, Sample.mint 1]) selector [Sample.mint 0] [Sample.mint 0] ∧
        checkBlockMass Sample.body (Consensus.Sample.block 1 0 5 [Consensus.Sample.coinbase 2 [], Sample.mint 0]) =
          .ok mass := by
  have batch : ((Sample.start [Sample.mint 0, Sample.mint 1]).selectTransactions Sample.txId []).2 =
      [Sample.mint 1, Sample.mint 0] := by decide +kernel
  have pool : PoolOk Sample.txId (normalizedMax Sample.body) [Sample.mint 0, Sample.mint 1]
      (Sample.frontier [Sample.mint 0, Sample.mint 1]) := Sample.poolOk (by decide +kernel) (by decide +kernel)
  have first := Sample.handsOut_first [Sample.mint 0, Sample.mint 1]
  rw [batch] at first
  obtain ⟨-, rejects, -, -⟩ := buildSelector_within_limits Sample.sameLimits pool first
  obtain ⟨selector, rejected⟩ := rejects (Sample.mint 1) List.mem_cons_self
  have run := first.reject List.mem_cons_self rejected
  rw [List.erase_cons_head] at run
  obtain ⟨-, -, -, passes⟩ := buildSelector_within_limits Sample.sameLimits pool run
  obtain ⟨mass, checked⟩ := (passes (by decide +kernel)).2 _ (Consensus.Sample.coinbase 2 []) _ rfl rfl rfl
    (List.Perm.refl _)
  exact ⟨selector, mass, run, checked⟩

open Sample in
/-- One lane to a block: the mint takes it, and the anchor is included by force. -/
theorem forced_anchor_exceeds_lanes :
    SameLimits body oneLane ∧
      PoolOk txId (normalizedMax body) [anchor, mint 0] (frontier [anchor, mint 0]) ∧
      ∃ selector kept,
        HandsOut txId (start [anchor, mint 0]) selector kept kept ∧
        (lanesOf kept).length = 2 ∧ oneLane.lanesPerBlockLimit = 1 ∧
        checkBlockMass body (Consensus.Sample.block 1 0 5 (Consensus.Sample.coinbase 2 [] :: kept)) =
          .error (.exceedsLanesPerBlockLimit 2 1) := by
  have batch : ((start [anchor, mint 0]).selectTransactions txId []).2 =
      [anchor, mint 0] := by decide +kernel
  have run := handsOut_first [anchor, mint 0]
  rw [batch] at run
  exact ⟨sameLimits, poolOk (by decide +kernel) (by decide +kernel), _, _, run,
    by decide +kernel, rfl, rfl⟩

end Marigold.Mining
