import Marigold.Mining.Conflicts
import Marigold.Mining.Handout

/-!
# Parents, chains and the ready transactions

The pool keeps for each transaction the transactions of the pool that it spends from, and for each of those the
transactions chained to it, and it keeps the frontier of the transactions without parents. The three are kept
incrementally: a transaction that is added is linked to its parents only. That is all there is to link unless a
transaction of the pool already spends an output of the one that is added.
-/

namespace Marigold.Mining

open Lib Call

variable {C : Config}

namespace Frontier

/-- The frontier has a key of the transaction. -/
def Has (C : Config) (F : Frontier) (id : TransactionId) : Prop := ∃ key ∈ F.searchTree, C.idOf key.tx = id

variable {all : MempoolTransactionCollection} {F F' : Frontier} {id : TransactionId} {tx : MempoolTransaction}
  {key : FeerateTransactionKey}

variable (holds : F.Holds C all) (there : all.lookup (C.idOf key.tx) = some tx)
  (from' : FeerateTransactionKey.fromTx C tx.mtx = some key)

include holds there from'

theorem Holds.has_insert : (F.insert C key).Has C id ↔ F.Has C id ∨ id = C.idOf key.tx := by
  rw [Frontier.insert]
  split
  next present =>
    rw [holds.any_iff there from'] at present
    refine ⟨.inl, fun either => either.elim (fun has => has) ?_⟩
    rintro rfl
    exact ⟨key, present, rfl⟩
  · have perm : (place C key F.searchTree).Perm _ := place_perm key F.searchTree
    simp only [Has, perm.mem_iff, List.mem_cons]
    constructor
    · rintro ⟨other, rfl | member, rfl⟩
      · exact .inr rfl
      · exact .inl ⟨other, member, rfl⟩
    · rintro (⟨other, member, rfl⟩ | rfl)
      · exact ⟨other, .inr member, rfl⟩
      · exact ⟨key, .inl rfl, rfl⟩

theorem Holds.has_remove (removed : F.remove C key = .ok F') : F'.Has C id ↔ F.Has C id ∧ id ≠ C.idOf key.tx := by
  rw [Frontier.remove] at removed
  split at removed
  · split at removed
    · cases removed
    · cases removed
      simp only [Has, List.mem_filter, decide_eq_true_eq]
      constructor
      · rintro ⟨other, ⟨member, differs⟩, rfl⟩
        refine ⟨⟨other, member, rfl⟩, fun same => differs ?_⟩
        rw [holds.unique there from' member same, FeerateTransactionKey.cmp_self]
      · rintro ⟨⟨other, member, rfl⟩, differ⟩
        exact ⟨other, ⟨member, fun same => differ (FeerateTransactionKey.id_of_cmp same)⟩, rfl⟩
  next absent =>
    cases removed
    rw [holds.any_iff there from'] at absent
    refine ⟨fun has => ⟨has, ?_⟩, And.left⟩
    rintro rfl
    obtain ⟨other, member, same⟩ := has
    exact absent (holds.unique there from' member same ▸ member)

end Frontier

namespace TransactionsPool

/-- One transaction of the pool spends an output of another one. -/
def SpendsFrom (all : MempoolTransactionCollection) (child parent : TransactionId) : Prop :=
  child ≠ parent ∧ Pool.has all parent = true ∧ ∃ tx, all.lookup child = some tx ∧ parent ∈ tx.mtx.parents

/-- The relations are the edges `E`, which are between transactions of the pool, and the frontier has the
transactions from which no edge leads to a parent. -/
structure RelatedBy (C : Config) (E : TransactionId → TransactionId → Prop) (pool : TransactionsPool) : Prop where
  ids : ∀ id tx, pool.allTransactions.lookup id = some tx → tx.mtx.id C = id
  populated : ∀ id tx, pool.allTransactions.lookup id = some tx → (tx.mtx.calculatedFeerate C).isSome
  ready : pool.readyTransactions.Holds C pool.allTransactions
  known : ∀ id, pool.allTransactions.lookup id = none → pool.parentTransactions.lookup id = none
  inside : ∀ child parent, E child parent → child ≠ parent ∧ Pool.has pool.allTransactions child = true ∧
    Pool.has pool.allTransactions parent = true
  parents : ∀ id, Pool.has pool.allTransactions id = true → ∃ parents, pool.parentTransactions.lookup id = some parents ∧
    parents.Nodup ∧ ∀ parent, parent ∈ parents ↔ E id parent
  chained : ∀ parent child, child ∈ Pool.edgesOf pool.chainedTransactions parent ↔ E child parent
  once : ∀ parent, (Pool.edgesOf pool.chainedTransactions parent).Nodup
  frontier : ∀ id, pool.readyTransactions.Has C id ↔ Pool.has pool.allTransactions id = true ∧ ∀ parent, ¬E id parent

variable {pool : TransactionsPool} {id : TransactionId} {tx : MempoolTransaction}
  {E : TransactionId → TransactionId → Prop} {all : MempoolTransactionCollection} {child parent c : TransactionId}
  {chained : TransactionsEdges} {chains parents : List TransactionId} {after : TransactionsPool}
  {old : MempoolTransaction} {new : MutableTransaction}

theorem RelatedBy.mem_edgesOf (related : RelatedBy C E pool) :
    parent ∈ Pool.edgesOf pool.parentTransactions child ↔ E child parent := by
  cases there : Pool.has pool.allTransactions child with
  | true =>
    obtain ⟨parents, found, -, members⟩ := related.parents child there
    rw [Pool.edgesOf, found, Option.getD_some, members]
  | false =>
    rw [Pool.edgesOf, related.known child (Pool.has_eq_false.mp there), Option.getD_none]
    refine ⟨fun member => (by cases member), fun edge => ?_⟩
    cases there.symm.trans (related.inside child parent edge).2.1

theorem empty_relatedBy : RelatedBy C (fun _ _ => False) empty := by
  refine ⟨fun id tx there => (nomatch there), fun id tx there => (nomatch there), ⟨List.nodup_nil, ?_, rfl⟩,
    fun id there => rfl, fun _ _ edge => edge.elim, fun id there => (nomatch there), fun parent child => ?_,
    fun parent => List.nodup_nil, fun id => ?_⟩
  · exact fun key member => nomatch member
  · exact ⟨fun member => (nomatch member), False.elim⟩
  · exact ⟨fun has => (nomatch has.choose_spec.1), fun has => (nomatch has.1)⟩

/-! ## Removal -/

theorem edgesOf_unchain_all (once : ∀ p, (Pool.edgesOf chained p).Nodup) (parents : List TransactionId) :
    (∀ p, (Pool.edgesOf (parents.foldl (unchain id) chained) p).Nodup) ∧
    ∀ p, id ∈ Pool.edgesOf (parents.foldl (unchain id) chained) p ↔ id ∈ Pool.edgesOf chained p ∧ p ∉ parents := by
  induction parents generalizing chained with
  | nil => exact ⟨once, fun p => by simp⟩
  | cons parent rest ih =>
    have once' : ∀ p, (Pool.edgesOf (unchain id chained parent) p).Nodup := by
      intro p
      rw [edgesOf_unchain]
      split
      · exact (once p).erase id
      · exact once p
    refine ⟨(ih once').1, fun p => ?_⟩
    rw [List.foldl_cons, (ih once').2, edgesOf_unchain, List.mem_cons, not_or, ← and_assoc]
    refine and_congr_left fun _ => ?_
    split
    next same => simp [same, (once parent).mem_erase_iff]
    next differ => simp [differ]

/-- Where the loop over the transactions chained to a removed one stands, after some of them. -/
structure Unlinking (C : Config) (start : TransactionsPool) (id : TransactionId) (done : List TransactionId)
    (pool : TransactionsPool) : Prop where
  all : pool.allTransactions = start.allTransactions
  chained : pool.chainedTransactions = start.chainedTransactions
  parents : ∀ c, pool.parentTransactions.lookup c = (start.parentTransactions.lookup c).map fun parents =>
    if c ∈ done then parents.erase id else parents
  holds : pool.readyTransactions.Holds C start.allTransactions
  frontier : ∀ c, pool.readyTransactions.Has C c ↔ start.readyTransactions.Has C c ∨
    (c ∈ done ∧ ∃ parents, start.parentTransactions.lookup c = some parents ∧ parents.erase id = [])

theorem Unlinking.start (holds : pool.readyTransactions.Holds C pool.allTransactions) :
    Unlinking C pool id [] pool := by
  refine ⟨rfl, rfl, fun c => ?_, holds, fun c => ?_⟩
  · simp
  · simp

theorem Unlinking.step {start : TransactionsPool} {done : List TransactionId} (related : RelatedBy C E start)
    (unlinking : Unlinking C (unlinkParents id start) id done pool) (new : c ∉ done) :
    wp (unlinkChain C id c) (fun _ => Unlinking C (unlinkParents id start) id (done ++ [c])) (fun _ _ => False) pool := by
  simp only [unlinkChain, wp_bind, wp_read]
  have before := unlinking.parents c
  cases linked : (unlinkParents id start).parentTransactions.lookup c with
  | none =>
    rw [linked, Option.map_none] at before
    rw [before, wp_pure]
    refine ⟨unlinking.all, unlinking.chained, fun c' => ?_, unlinking.holds, fun c' => ?_⟩
    · rw [unlinking.parents]
      rcases eq_or_ne c' c with rfl | other
      · rw [linked, Option.map_none, Option.map_none]
      · simp [other]
    · rw [unlinking.frontier]
      rcases eq_or_ne c' c with rfl | other
      · simp [linked]
      · simp [other]
  | some parents =>
    rw [linked, Option.map_some, if_neg new] at before
    obtain ⟨tx, there⟩ : ∃ tx, (unlinkParents id start).allTransactions.lookup c = some tx := by
      refine Option.ne_none_iff_exists'.mp fun absent => ?_
      cases linked.symm.trans (related.known c absent)
    have parents' : ∀ c', (pool.parentTransactions.insert c (parents.erase id)).lookup c' =
        ((unlinkParents id start).parentTransactions.lookup c').map fun parents =>
          if c' ∈ done ++ [c] then parents.erase id else parents := by
      intro c'
      rw [Map.lookup_insert_eq]
      rcases eq_or_ne c' c with rfl | other
      · simp [linked]
      · simp [unlinking.parents, other]
    simp only [before, wp_bind, wp_update]
    split
    next last =>
      have there' := there
      rw [← unlinking.all] at there'
      obtain ⟨key, from', same⟩ := fromTx_of_populated (related.populated c tx there)
      rw [related.ids c tx there] at same
      simp only [there', insertReady, from', wp_bind, Action.wp_expect_some, wp_update]
      refine ⟨unlinking.all, unlinking.chained, parents', unlinking.holds.insert (same ▸ there) from', fun c' => ?_⟩
      change (pool.readyTransactions.insert C key).Has C c' ↔ _
      rw [unlinking.holds.has_insert (same ▸ there) from', unlinking.frontier, same]
      rcases eq_or_ne c' c with rfl | other
      · simp [linked, last, -List.erase_eq_nil_iff]
      · simp [other]
    next more =>
      refine ⟨unlinking.all, unlinking.chained, parents', unlinking.holds, fun c' => ?_⟩
      change pool.readyTransactions.Has C c' ↔ _
      rw [unlinking.frontier]
      rcases eq_or_ne c' c with rfl | other
      · simp [linked, more, new, -List.erase_eq_nil_iff]
      · simp [other]

theorem Unlinking.all_chains (related : RelatedBy C E pool) (once : chains.Nodup) :
    wp (forEach (unlinkChain C id) chains) (fun _ => Unlinking C (unlinkParents id pool) id chains)
      (fun _ _ => False) (unlinkParents id pool) := by
  -- the transactions done so far and those left are the list
  have loop := wp_forEach (f := unlinkChain C id) (E := fun _ _ => False)
    (fun rest pool' => ∃ done, done ++ rest = chains ∧ Unlinking C (unlinkParents id pool) id done pool')
    (fun c rest pool' ⟨done, split, unlinking⟩ => by
      have new : c ∉ done := by
        rw [← split, List.nodup_append] at once
        exact fun member => once.2.2 c member c (.head _ ..) rfl
      refine wp_total (unlinking.step related new) fun _ _ later => ?_
      exact ⟨done ++ [c], by rw [← split, List.append_assoc, List.singleton_append], later⟩)
    (show ∃ done, done ++ chains = chains ∧ _ from ⟨[], rfl, Unlinking.start related.ready⟩)
  refine wp_total loop fun _ pool' ended => ?_
  obtain ⟨done, split, unlinking⟩ := ended
  rw [List.append_nil] at split
  exact split ▸ unlinking

theorem erase_eq_nil_iff (once : parents.Nodup) : parents.erase id = [] ↔ ∀ p ∈ parents, p = id := by
  rw [List.eq_nil_iff_forall_not_mem]
  refine forall_congr' fun p => ?_
  rw [once.mem_erase_iff, not_and, not_imp_not]

/-- The edges between transactions that are left. -/
def left (E : TransactionId → TransactionId → Prop) (pool : TransactionsPool) (child parent : TransactionId) : Prop :=
  E child parent ∧ Pool.has pool.allTransactions child = true ∧ Pool.has pool.allTransactions parent = true

theorem Unlinking.related {unlinked : TransactionsPool} (related : RelatedBy C E pool)
    (unlinking : Unlinking C (unlinkParents id pool) id chains unlinked) (exact' : ∀ c, c ∈ chains ↔ E c id)
    (all : after.allTransactions = pool.allTransactions.erase id)
    (parents : after.parentTransactions = unlinked.parentTransactions.erase id)
    (chained : after.chainedTransactions = unlinked.chainedTransactions.erase id)
    (holds : after.readyTransactions.Holds C after.allTransactions)
    (ready : ∀ c, after.readyTransactions.Has C c ↔ unlinked.readyTransactions.Has C c ∧ c ≠ id) :
    RelatedBy C (left E after) after := by
  have fewer : ∀ c tx, after.allTransactions.lookup c = some tx → pool.allTransactions.lookup c = some tx :=
    fun c tx there => Map.lookup_of_erase (all ▸ there)
  have has : ∀ c, Pool.has after.allTransactions c = true ↔ c ≠ id ∧ Pool.has pool.allTransactions c = true := by
    intro c
    rw [all, Pool.has, Map.lookup_erase_eq, Pool.has]
    split
    next same => simp [same]
    next other => simp [other]
  have edge : ∀ c p, left E after c p ↔ c ≠ id ∧ p ≠ id ∧ E c p := by
    intro c p
    rw [left, has, has]
    constructor
    · rintro ⟨edge, child, parent⟩
      exact ⟨child.1, parent.1, edge⟩
    · rintro ⟨child, parent, edge⟩
      exact ⟨edge, ⟨child, (related.inside c p edge).2.1⟩, parent, (related.inside c p edge).2.2⟩
  have lookup : ∀ c, c ≠ id → after.parentTransactions.lookup c =
      (pool.parentTransactions.lookup c).map fun parents => if c ∈ chains then parents.erase id else parents := by
    intro c other
    rw [parents, Map.lookup_erase_eq, if_neg other, unlinking.parents]
    rfl
  have edges : ∀ p, Pool.edgesOf after.chainedTransactions p = if p = id then [] else
      Pool.edgesOf (unlinkParents id pool).chainedTransactions p := by
    intro p
    rw [chained, Pool.edgesOf, Map.lookup_erase_eq, unlinking.chained]
    split
    · rfl
    · rfl
  refine ⟨fun c tx there => related.ids c tx (fewer c tx there),
    fun c tx there => related.populated c tx (fewer c tx there), holds, fun c absent => ?_, fun c p kept => ?_,
    fun c there => ?_, fun p c => ?_, fun p => ?_, fun c => ?_⟩
  · rcases eq_or_ne c id with rfl | other
    · rw [parents, Map.lookup_erase_eq, if_pos rfl]
    · rw [all, Map.lookup_erase_eq, if_neg other] at absent
      rw [lookup c other, related.known c absent, Option.map_none]
  · exact ⟨(related.inside c p kept.1).1, kept.2⟩
  · obtain ⟨other, there⟩ := (has c).mp there
    obtain ⟨old, found, once, members⟩ := related.parents c there
    rw [lookup c other, found, Option.map_some]
    refine ⟨_, rfl, ?_, fun p => ?_⟩
    · split
      · exact once.erase id
      · exact once
    · rw [edge]
      split
      · rw [once.mem_erase_iff, members, and_iff_right other]
      next unchained =>
        rw [members, and_iff_right other]
        refine ⟨fun from' => ⟨?_, from'⟩, And.right⟩
        rintro rfl
        exact unchained ((exact' c).mpr from')
  · rw [edges, edge]
    split
    next same => simp [same]
    next other =>
      rw [and_iff_right other]
      rcases eq_or_ne c id with rfl | differ
      · -- the parents of the transaction have been told
        rw [unlinkParents, (edgesOf_unchain_all related.once _).2, related.chained]
        refine ⟨fun told => (told.2 ?_).elim, fun wrong => (wrong.1 rfl).elim⟩
        exact related.mem_edgesOf.mpr told.1
      · rw [unlinkParents, mem_edgesOf_unchain differ, related.chained, and_iff_right differ]
  · rw [edges]
    split
    · exact List.nodup_nil
    · exact (edgesOf_unchain_all related.once _).1 p
  · rw [ready, unlinking.frontier, has]
    simp only [edge]
    change (pool.readyTransactions.Has C c ∨ c ∈ chains ∧ ∃ parents, pool.parentTransactions.lookup c = some parents ∧
      parents.erase id = []) ∧ c ≠ id ↔ _
    rw [related.frontier, exact']
    constructor
    · rintro ⟨⟨there, none⟩ | ⟨from', parents, found, last⟩, other⟩
      · exact ⟨⟨other, there⟩, fun p from' => none p from'.2.2⟩
      · have there := (related.inside c id from').2.1
        obtain ⟨parents', found', once, members⟩ := related.parents c there
        cases found.symm.trans found'
        refine ⟨⟨other, there⟩, fun p from' => from'.2.1 ?_⟩
        exact (erase_eq_nil_iff once).mp last p ((members p).mpr from'.2.2)
    · rintro ⟨⟨other, there⟩, none⟩
      refine ⟨?_, other⟩
      by_cases from' : E c id
      · obtain ⟨parents, found, once, members⟩ := related.parents c there
        refine .inr ⟨from', parents, found, (erase_eq_nil_iff once).mpr fun p member => ?_⟩
        by_contra differ
        exact none p ⟨other, differ, (members p).mp member⟩
      · refine .inl ⟨there, fun p spent => none p ⟨other, ?_, spent⟩⟩
        rintro rfl
        exact from' spent

/-- A removal keeps the relations exact, also one that fails or panics. -/
theorem removeTransaction_related (related : RelatedBy C E pool) (id : TransactionId) :
    let After (pool' : TransactionsPool) := RelatedBy C (left E pool') pool' ∧
      ∀ c tx, pool'.allTransactions.lookup c = some tx → pool.allTransactions.lookup c = some tx
    wp (removeTransaction C id) (fun tx pool' => After pool' ∧ pool.allTransactions.lookup id = some tx ∧
      pool'.allTransactions = pool.allTransactions.erase id) (fun _ => After) pool := by
  intro After
  simp only [removeTransaction, wp_bind, wp_update, wp_read]
  -- the parents of the transaction do not chain to themselves
  have exact' : ∀ c, c ∈ Pool.edgesOf (unlinkParents id pool).chainedTransactions id ↔ E c id := by
    intro c
    rcases eq_or_ne c id with rfl | other
    · rw [unlinkParents, (edgesOf_unchain_all related.once _).2, related.chained]
      exact ⟨And.left, fun edge => ((related.inside c c edge).1 rfl).elim⟩
    · rw [unlinkParents, mem_edgesOf_unchain other, related.chained]
  have once : (Pool.edgesOf (unlinkParents id pool).chainedTransactions id).Nodup := (edgesOf_unchain_all related.once _).1 id
  refine wp_total (Unlinking.all_chains related once) fun _ unlinked unlinking => ?_
  have all : unlinked.allTransactions = pool.allTransactions := unlinking.all
  simp only [wp_bind, wp_update, wp_read]
  cases there : unlinked.allTransactions.lookup id with
  | none =>
    -- the transaction is not in the pool, and was in none of its relations
    have same : pool.allTransactions.erase id = pool.allTransactions := by
      rw [all] at there
      exact Map.erase_of_lookup_none there
    have absent : ∀ c, unlinked.readyTransactions.Has C c → c ≠ id := by
      rintro c ⟨key, member, own⟩ rfl
      rw [← own] at there
      obtain ⟨tx, found, -⟩ := unlinking.holds.keys key member
      rw [unlinking.all] at there
      cases there.symm.trans found
    refine ⟨unlinking.related related exact' (all.trans same.symm) rfl rfl (all ▸ unlinking.holds) fun c => ?_,
      fun c tx found => all ▸ found⟩
    exact ⟨fun has => ⟨has, absent c has⟩, And.left⟩
  | some tx =>
    obtain ⟨key, from', own⟩ := fromTx_of_populated (related.populated id tx (all ▸ there))
    rw [related.ids id tx (all ▸ there)] at own
    have found : pool.allTransactions.lookup (C.idOf key.tx) = some tx := by
      rw [own, ← all]
      exact there
    obtain ⟨ready, removed, holds⟩ := unlinking.holds.remove found from'
    -- what follows is about the other indexes
    have after : ∀ after : TransactionsPool, after.allTransactions = pool.allTransactions.erase id →
        after.parentTransactions = unlinked.parentTransactions.erase id →
        after.chainedTransactions = unlinked.chainedTransactions.erase id → after.readyTransactions = ready →
        After after := by
      intro after allAfter parentsAfter chainedAfter readyAfter
      refine ⟨unlinking.related related exact' allAfter parentsAfter chainedAfter ?_ fun c => ?_,
        fun c tx' found => Map.lookup_of_erase (allAfter ▸ found)⟩
      · rw [allAfter, readyAfter, ← own]
        exact holds
      · rw [readyAfter, unlinking.holds.has_remove found from' removed, own]
    simp only [removeReady, from', removed, wp_bind, wp_update, wp_read, Action.wp_expect_some,
      wp_ofExcept_ok, subtractSize]
    have erased : unlinked.allTransactions.erase id = pool.allTransactions.erase id := by rw [all]
    split
    · exact after _ erased rfl rfl rfl
    · simp only [wp_bind, wp_read, wp_update, Action.wp_assert, wp_pure]
      exact ⟨fun _ => ⟨after _ erased rfl rfl rfl, all ▸ there, erased⟩, fun _ => after _ erased rfl rfl rfl⟩

/-! ## Addition -/

/-- No transaction of the pool spends an output of the transaction. -/
def Childless (all : MempoolTransactionCollection) (id : TransactionId) : Prop :=
  ∀ c tx, all.lookup c = some tx → id ∉ tx.mtx.parents

instance (all : MempoolTransactionCollection) (id : TransactionId) : Decidable (Childless all id) :=
  decidable_of_iff (∀ entry ∈ all.entries, id ∉ entry.2.mtx.parents) (by
    refine ⟨fun every c tx there => every ⟨c, tx⟩ (Map.lookup_eq_some_iff.mp there), fun every entry member => ?_⟩
    exact every entry.1 entry.2 (Map.lookup_eq_some_iff.mpr member))

theorem edgesOf_chain (once : ∀ p, (Pool.edgesOf chained p).Nodup) (parents : List TransactionId) :
    (∀ p, (Pool.edgesOf (parents.foldl (chain id) chained) p).Nodup) ∧
    ∀ p c, c ∈ Pool.edgesOf (parents.foldl (chain id) chained) p ↔
      c ∈ Pool.edgesOf chained p ∨ c = id ∧ p ∈ parents := by
  induction parents generalizing chained with
  | nil => exact ⟨once, fun p c => by simp⟩
  | cons parent rest ih =>
    have edges : ∀ p, Pool.edgesOf (chain id chained parent) p =
        if p = parent then (Pool.edgesOf chained p).insert id else Pool.edgesOf chained p := by
      intro p
      rw [chain, Pool.edgesOf, Map.lookup_insert_eq]
      split
      next same => rw [same, Option.getD_some]
      · rfl
    have once' : ∀ p, (Pool.edgesOf (chain id chained parent) p).Nodup := by
      intro p
      rw [edges]
      split
      · exact (once p).insert
      · exact once p
    refine ⟨(ih once').1, fun p c => ?_⟩
    rw [List.foldl_cons, (ih once').2, edges, List.mem_cons, and_or_left, ← or_assoc]
    refine or_congr_left ?_
    split
    next same => simp [same, List.mem_insert_iff, or_comm]
    next other => simp [other]

theorem spendsFrom_insert (fresh : all.lookup id = none) (childless : Childless all id) {p : TransactionId} :
    SpendsFrom (all.insert id tx) c p ↔
      SpendsFrom all c p ∨ c = id ∧ p ∈ Pool.getParentTransactionIdsInPool all tx.mtx := by
  simp only [SpendsFrom, Pool.has, Pool.getParentTransactionIdsInPool, List.mem_dedup, List.mem_filter,
    Map.lookup_insert_eq]
  rcases eq_or_ne p id with rfl | parent
  · -- nothing spends from it
    simp only [fresh, Option.isSome_none, Bool.false_eq_true, and_false, false_and, or_false, iff_false]
    rintro ⟨differ, -, tx', there, member⟩
    rw [if_neg differ] at there
    exact childless c tx' there member
  · rcases eq_or_ne c id with rfl | child
    · simp [parent, parent.symm, fresh, and_comm]
    · simp [parent, child]

/-- The new transaction has an edge to each of its parents in the pool, and none has an edge to it. -/
def linked (C : Config) (E : TransactionId → TransactionId → Prop) (all : MempoolTransactionCollection)
    (transaction : MutableTransaction) (child parent : TransactionId) : Prop :=
  E child parent ∨ child = transaction.id C ∧ parent ∈ Pool.getParentTransactionIdsInPool all transaction

theorem RelatedBy.add (related : RelatedBy C E pool) (fresh : pool.allTransactions.lookup (tx.mtx.id C) = none)
    (populated : (tx.mtx.calculatedFeerate C).isSome)
    (inPool : parents = Pool.getParentTransactionIdsInPool pool.allTransactions tx.mtx)
    (all : after.allTransactions = pool.allTransactions.insert (tx.mtx.id C) tx)
    (parentsAfter : after.parentTransactions = pool.parentTransactions.insert (tx.mtx.id C) parents)
    (chained : after.chainedTransactions = parents.foldl (chain (tx.mtx.id C)) pool.chainedTransactions)
    (holds : after.readyTransactions.Holds C after.allTransactions)
    (ready : ∀ c, after.readyTransactions.Has C c ↔ pool.readyTransactions.Has C c ∨ c = tx.mtx.id C ∧ parents = []) :
    RelatedBy C (linked C E pool.allTransactions tx.mtx) after := by
  have lookup : ∀ c, after.allTransactions.lookup c =
      if c = tx.mtx.id C then some tx else pool.allTransactions.lookup c := by
    intro c
    rw [all, Map.lookup_insert_eq]
  have more : ∀ c, Pool.has pool.allTransactions c = true → Pool.has after.allTransactions c = true := by
    intro c there
    rw [Pool.has, lookup]
    split
    · rfl
    · exact there
  have edge : ∀ c p, linked C E pool.allTransactions tx.mtx c p ↔ E c p ∨ c = tx.mtx.id C ∧ p ∈ parents := by
    intro c p
    rw [linked, inPool]
  have absent := Pool.has_eq_false.mpr fresh
  have notYet : ∀ p, ¬E (tx.mtx.id C) p := by
    intro p edge
    cases absent.symm.trans (related.inside _ p edge).2.1
  refine ⟨fun c tx' there => ?_, fun c tx' there => ?_, holds, fun c absent => ?_, fun c p new => ?_,
    fun c there => ?_, fun p c => ?_, fun p => ?_, fun c => ?_⟩
  · rcases Map.lookup_of_insert (all ▸ there) with ⟨rfl, rfl⟩ | before
    · rfl
    · exact related.ids c tx' before
  · rcases Map.lookup_of_insert (all ▸ there) with ⟨rfl, rfl⟩ | before
    · exact populated
    · exact related.populated c tx' before
  · rw [lookup] at absent
    split at absent
    · cases absent
    next other => rw [parentsAfter, Map.lookup_insert_eq, if_neg other, related.known c absent]
  · rcases (edge c p).mp new with old | ⟨rfl, member⟩
    · obtain ⟨differ, child, parent⟩ := related.inside c p old
      exact ⟨differ, more c child, more p parent⟩
    · rw [inPool, Pool.getParentTransactionIdsInPool, List.mem_dedup, List.mem_filter] at member
      refine ⟨?_, ?_, more p member.2⟩
      · rintro rfl
        cases absent.symm.trans member.2
      · exact Pool.has_of_lookup ((lookup _).trans (if_pos rfl))
  · simp only [parentsAfter, Map.lookup_insert_eq, edge]
    rcases eq_or_ne c (tx.mtx.id C) with rfl | other
    · refine ⟨parents, if_pos rfl, inPool ▸ List.nodup_dedup _, fun p => ?_⟩
      rw [or_iff_right (notYet p), and_iff_right rfl]
    · rw [Pool.has, lookup, if_neg other] at there
      simpa [other] using related.parents c there
  · rw [chained, (edgesOf_chain related.once parents).2, related.chained, edge]
  · rw [chained]
    exact (edgesOf_chain related.once parents).1 p
  · rw [ready, related.frontier, Pool.has, Pool.has, lookup]
    simp only [edge]
    rcases eq_or_ne c (tx.mtx.id C) with rfl | other
    · simp [fresh, notYet, List.eq_nil_iff_forall_not_mem]
    · simp [other]

theorem addMempoolTransaction_related (related : RelatedBy C E pool) (tx : MempoolTransaction) (size : Nat) :
    wp (addMempoolTransaction C tx size) (fun _ pool' => pool.allTransactions.lookup (tx.mtx.id C) = none ∧
        pool'.allTransactions = pool.allTransactions.insert (tx.mtx.id C) tx ∧
        RelatedBy C (linked C E pool.allTransactions tx.mtx) pool') (fun _ after => after = pool) pool := by
  simp only [addMempoolTransaction, wp_bind, wp_read, Action.wp_assert, Bool.not_eq_true',
    Bool.not_eq_false', wp_update]
  refine ⟨fun absent => ⟨fun populated => ?_, fun _ => trivial⟩, fun _ => trivial⟩
  have fresh := Pool.has_eq_false.mp absent
  have feerate := calculatedFeerate_of_populated (C := C) populated
  obtain ⟨key, from', own⟩ := fromTx_of_populated feerate
  have grown := related.ready.grow fresh tx
  have there : (pool.allTransactions.insert (tx.mtx.id C) tx).lookup (C.idOf key.tx) = some tx := by
    rw [own, Map.lookup_insert_eq, if_pos rfl]
  split
  next none =>
    simp only [insertReady, from', wp_bind, Action.wp_expect_some, wp_update]
    refine ⟨fresh, rfl, related.add fresh feerate rfl rfl rfl rfl (grown.insert there from') fun c => ?_⟩
    change (pool.readyTransactions.insert C key).Has C c ↔ _
    rw [grown.has_insert there from', own, and_iff_left none]
  next some =>
    refine ⟨fresh, rfl, related.add fresh feerate rfl rfl rfl rfl grown fun c => ?_⟩
    change pool.readyTransactions.Has C c ↔ _
    rw [or_iff_left fun ready => some ready.2]

theorem has_revalidated {new : MempoolTransaction} (there : all.lookup id = some old) (c : TransactionId) :
    Pool.has (all.insert id new) c = Pool.has all c := by
  rw [Pool.has, Map.lookup_insert_eq, Pool.has]
  split
  next here =>
    rw [here, there]
    rfl
  · rfl

theorem RelatedBy.replace (related : RelatedBy C E pool) (there : pool.allTransactions.lookup (new.id C) = some old)
    (again : Revalidates C old.mtx new) {size : Nat} :
    RelatedBy C E { pool with allTransactions := pool.allTransactions.insert (new.id C) { old with mtx := new }
                              estimatedSize := size } := by
  have lookup : ∀ id tx, (pool.allTransactions.insert (new.id C) { old with mtx := new }).lookup id = some tx →
      ∃ before, pool.allTransactions.lookup id = some before ∧ Revalidates C before.mtx tx.mtx := by
    intro id tx found
    rcases Map.lookup_of_insert found with ⟨rfl, rfl⟩ | before
    · exact ⟨old, there, again⟩
    · exact ⟨tx, before, rfl, rfl, rfl⟩
  have has : ∀ c, Pool.has (pool.allTransactions.insert (new.id C) { old with mtx := new }) c =
      Pool.has pool.allTransactions c := has_revalidated there
  refine ⟨fun id tx found => ?_, fun id tx found => ?_, related.ready.replace there again.fromTx, fun id absent => ?_,
    ?_, fun id found => ?_, related.chained, related.once, fun id => ?_⟩
  · obtain ⟨before, found, same⟩ := lookup id tx found
    rw [MutableTransaction.id, same.tx]
    exact related.ids id before found
  · obtain ⟨before, found, same⟩ := lookup id tx found
    rw [same.feerate]
    exact related.populated id before found
  · exact related.known id (Pool.has_eq_false.mp ((has id).symm.trans (Pool.has_eq_false.mpr absent)))
  · simpa only [has] using related.inside
  · exact related.parents id ((has id).symm.trans found)
  · simpa only [has] using related.frontier id

/-! ## What is kept -/

/-- What holds of the edges between the transactions of a pool, whatever is removed or validated anew. -/
structure Stable (K : (TransactionId → TransactionId → Prop) → MempoolTransactionCollection → Prop) : Prop where
  remove : ∀ {E all all'}, K E all → (∀ id tx, all'.lookup id = some tx → all.lookup id = some tx) →
    K (fun c p => E c p ∧ Pool.has all' c = true ∧ Pool.has all' p = true) all'
  replace : ∀ {E all id} {old new : MempoolTransaction}, K E all → all.lookup id = some old →
    new.mtx.tx = old.mtx.tx → K E (all.insert id new)

/-- Related by edges with the property. -/
def Related (C : Config) (K : (TransactionId → TransactionId → Prop) → MempoolTransactionCollection → Prop)
    (pool : TransactionsPool) : Prop := ∃ E, K E pool.allTransactions ∧ RelatedBy C E pool

variable {K : (TransactionId → TransactionId → Prop) → MempoolTransactionCollection → Prop}

/-- The edges are exactly the spends. -/
def Exact (E : TransactionId → TransactionId → Prop) (all : MempoolTransactionCollection) : Prop :=
  ∀ c p, E c p ↔ SpendsFrom all c p

theorem exact_stable : Stable Exact := by
  refine ⟨fun {E all all'} exact' sub c p => ?_, fun {E all id old new} exact' there same c p => ?_⟩
  · change E c p ∧ _ ↔ _
    rw [exact', SpendsFrom, SpendsFrom]
    constructor
    · rintro ⟨⟨differ, -, tx, there, member⟩, child, parent⟩
      obtain ⟨tx', left⟩ := Option.isSome_iff_exists.mp child
      cases there.symm.trans (sub c tx' left)
      exact ⟨differ, parent, tx, left, member⟩
    · rintro ⟨differ, parent, tx, there, member⟩
      obtain ⟨tx', left⟩ := Option.isSome_iff_exists.mp parent
      exact ⟨⟨differ, Pool.has_of_lookup (sub p tx' left), tx, sub c tx there, member⟩, Pool.has_of_lookup there, parent⟩
  · rw [exact', SpendsFrom, SpendsFrom, has_revalidated there, Map.lookup_insert_eq]
    split
    next here =>
      subst here
      have parents : new.mtx.parents = old.mtx.parents := by
        rw [MutableTransaction.parents, MutableTransaction.spends, same]
        rfl
      simp [there, parents]
    · rfl

/-- The property still holds with the transaction in the pool, whatever was removed before. -/
def Admits (C : Config) (K : (TransactionId → TransactionId → Prop) → MempoolTransactionCollection → Prop)
    (all : MempoolTransactionCollection) (transaction : MutableTransaction) : Prop :=
  ∀ E all' (tx : MempoolTransaction), tx.mtx = transaction → K E all' →
    (∀ id tx, all'.lookup id = some tx → all.lookup id = some tx) → all'.lookup (transaction.id C) = none →
    (∀ c p, E c p → Pool.has all' c = true ∧ Pool.has all' p = true) →
    K (linked C E all' transaction) (all'.insert (transaction.id C) tx)

theorem admits_exact {transaction : MutableTransaction} (childless : Childless all (transaction.id C)) :
    Admits C Exact all transaction := by
  rintro E all' tx rfl exact' sub fresh - c p
  have still : Childless all' (tx.mtx.id C) := fun c tx' there => childless c tx' (sub c tx' there)
  rw [linked, exact', spendsFrom_insert fresh still]

theorem updateRevalidatedTransaction_related (stable : Stable K) (related : Related C K pool)
    (same : ∀ old, pool.allTransactions.lookup (new.id C) = some old → Revalidates C old.mtx new) :
    wp (updateRevalidatedTransaction C new) (fun _ => Related C K) (fun _ => Related C K) pool := by
  obtain ⟨E, kept, related⟩ := related
  simp only [updateRevalidatedTransaction, wp_bind, wp_read]
  cases there : pool.allTransactions.lookup (new.id C) with
  | none => exact ⟨E, kept, related⟩
  | some old =>
    have again := same old there
    simp only [subtractSize, wp_bind, wp_read]
    split
    · exact ⟨E, kept, related⟩
    · simp only [wp_update]
      exact ⟨E, stable.replace kept there again.tx, related.replace there again⟩

end TransactionsPool

/-! ## The mempool -/

namespace Mempool

open TransactionsPool

/-- Transactions of the pool are only removed. -/
def Drops (m m' : Mempool) : Prop := ∀ id tx, m'.transactionPool.allTransactions.lookup id = some tx →
  m.transactionPool.allTransactions.lookup id = some tx

variable {m m' start : Mempool} {id : TransactionId}
  {K : (TransactionId → TransactionId → Prop) → MempoolTransactionCollection → Prop}

theorem removeTransaction_keeps (stable : Stable K) {pool : TransactionsPool} (related : Related C K pool)
    (id : TransactionId) :
    let After (pool' : TransactionsPool) := Related C K pool' ∧
      ∀ c tx, pool'.allTransactions.lookup c = some tx → pool.allTransactions.lookup c = some tx
    wp (TransactionsPool.removeTransaction C id) (fun _ => After) (fun _ => After) pool := by
  obtain ⟨E, kept, related⟩ := related
  refine wp_mono (removeTransaction_related related id) (fun _ _ done => ?_) fun _ _ failed => ?_
  · exact ⟨⟨_, stable.remove kept done.1.2, done.1.1⟩, done.1.2⟩
  · exact ⟨⟨_, stable.remove kept failed.2, failed.1⟩, failed.2⟩

theorem related_closed (stable : Stable K) :
    Closed C (fun _ => True) (fun _ => True) fun m => Related C K m.transactionPool :=
  .of_pool fun id _ related => wp_mono (removeTransaction_keeps stable related id) (fun _ _ done => done.1)
    fun _ _ failed => ⟨trivial, failed.1⟩

theorem drops_closed (stable : Stable K) (start : Mempool) :
    Closed C (fun _ => True) (fun _ => True) fun m => Related C K m.transactionPool ∧ Drops start m := by
  refine .of_pool (P := fun pool => Related C K pool ∧ ∀ id tx, pool.allTransactions.lookup id = some tx →
    start.transactionPool.allTransactions.lookup id = some tx) fun id pool before => ?_
  refine wp_mono (removeTransaction_keeps stable before.1 id) (fun _ _ done => ?_) fun _ _ failed => ?_
  · exact ⟨done.1, fun id tx there => before.2 id tx (done.2 id tx there)⟩
  · exact ⟨trivial, failed.1, fun id tx there => before.2 id tx (failed.2 id tx there)⟩

/-- Nothing is inserted that would break the property. -/
def Op.Admitted (C : Config) (K : (TransactionId → TransactionId → Prop) → MempoolTransactionCollection → Prop)
    (m : Mempool) : Op → Prop
  | .insert _ validationResult transaction _ _ _ =>
    validationResult = .ok () → Admits C K m.transactionPool.allTransactions transaction
  | _ => True

theorem Op.run_related {op : Op} (stable : Stable K) (related : Related C K m.transactionPool) (sound : op.Sound C m)
    (admitted : op.Admitted C K m) :
    wp (op.run C) (fun _ m' => Related C K m'.transactionPool) (fun _ m' => Related C K m'.transactionPool) m := by
  refine (drops_closed stable m).run_add (related_closed stable) (fun _ both => both.1) (fun both _ => both)
    ⟨related, fun _ _ there => there⟩ ⟨?_, ?_, ?_⟩
  · rintro consensus transaction priority orphan rbfPolicy rfl m' tx size ⟨⟨E, kept, related⟩, drops⟩ rfl
    rw [wp_onPool]
    refine wp_mono (addMempoolTransaction_related related tx size) (fun _ pool added => ?_) fun _ pool same => ?_
    · obtain ⟨fresh, all, linked⟩ := added
      refine ⟨_, ?_, linked⟩
      rw [all]
      exact admitted rfl E _ tx rfl kept drops fresh fun c p edge => (related.inside c p edge).2
    · exact same ▸ ⟨E, kept, related⟩
  · rintro consensus transaction priority orphan rbfPolicy rfl m' score ⟨related, -⟩ -
    exact wp_onOrphans.mpr (wp_const related)
  · rintro transaction rfl
    rw [wp_onPool]
    exact updateRevalidatedTransaction_related stable related sound

/-- What holds of the relations of the empty pool holds in every run that inserts nothing to break it. -/
theorem related_of_reachable {Allowed : Mempool → Op → Prop} (stable : Stable K) (start : K (fun _ _ => False) ∅)
    (admitted : ∀ m op, Allowed m op → op.Admitted C K m) (reachable : Reachable C Allowed m) :
    Related C K m.transactionPool :=
  Reachable.keeps (P := fun m => Related C K m.transactionPool) reachable ⟨_, start, empty_relatedBy⟩
    fun m op related sound allowed => Op.run_related stable related sound (admitted m op allowed)

/-! ## Exact relations -/

/-- No transaction is inserted while a transaction of the pool spends one of its outputs. -/
def Op.ChildlessInsertion (C : Config) (m : Mempool) : Op → Prop
  | .insert _ validationResult transaction _ _ _ =>
    validationResult = .ok () → Childless m.transactionPool.allTransactions (transaction.id C)
  | _ => True

theorem exact_of_reachable (reachable : Reachable C (fun m op => op.ChildlessInsertion C m) m) :
    RelatedBy C (SpendsFrom m.transactionPool.allTransactions) m.transactionPool := by
  have admitted : ∀ m (op : Op), op.ChildlessInsertion C m → op.Admitted C Exact m := by
    intro m op childless
    cases op with
    | insert => exact fun ok => admits_exact (childless ok)
    | _ => trivial
  have start : Exact (fun _ _ => False) ∅ := fun c p => ⟨False.elim, fun spends => (nomatch spends.2.1)⟩
  obtain ⟨E, exact', related⟩ := related_of_reachable exact_stable start admitted reachable
  have same : E = SpendsFrom m.transactionPool.allTransactions := by
    funext c p
    exact propext (exact' c p)
  exact same ▸ related

/-- The transactions of the pool, for `build_selector`. -/
def transactions (pool : TransactionsPool) : List Transaction :=
  pool.allTransactions.entries.map fun entry => entry.2.mtx.tx

namespace Sample

/-- Spends the output of transaction 1. -/
def childTx : Transaction := { spender 2 with inputs := [⟨⟨1, 0⟩, [], 0, .sigopCount 0⟩] }

def submitChild : Op :=
  .insert api (.ok ()) ⟨childTx, [some ⟨50, ⟨0, []⟩, 0, false, none⟩], some 7, some (10, 10), rfl⟩ .low .allowed .allowed

def family : Mempool := (submitChild.run config ((submit 1 7).run config .empty).2).2

def readded : Mempool := ((submit 1 7).run config ((Op.remove 1 false).run config family).2).2

end Sample

theorem lookup_of_mem {pool : TransactionsPool} (ok : pool.Ok C) {tx : Transaction} (member : tx ∈ transactions pool) :
    ∃ entry, pool.allTransactions.lookup (C.idOf tx) = some entry ∧ entry.mtx.tx = tx := by
  obtain ⟨entry, inside, rfl⟩ := List.mem_map.mp member
  have found := Map.lookup_eq_some_iff.mpr inside
  have own : C.idOf entry.2.mtx.tx = entry.1 := ok.ids _ _ found
  exact ⟨entry.2, own ▸ found, rfl⟩

theorem poolOk_of_ok {pool : TransactionsPool} (ok : pool.Ok C) :
    ∃ massOf, PoolOk C.idOf massOf (transactions pool) pool.readyTransactions := by
  let tree := pool.readyTransactions.searchTree
  refine ⟨fun tx => ((tree.find? fun key => key.tx = tx).map FeerateTransactionKey.mass).getD 0, ?_, ok.ready.once,
    fun key member => ?_, ok.ready.total⟩
  · have ids : (transactions pool).map C.idOf = pool.allTransactions.entries.map Sigma.fst := by
      rw [transactions, List.map_map]
      exact List.map_congr_left fun entry inside => ok.ids _ _ (Map.lookup_eq_some_iff.mpr inside)
    rw [ids]
    exact pool.allTransactions.nodupKeys
  · cases found : tree.find? fun other => other.tx = key.tx with
    | none => simpa using List.find?_eq_none.mp found key member
    | some other =>
      have same : other.tx = key.tx := by simpa using List.find?_some found
      rw [List.inj_on_of_nodup_map ok.ready.once (List.mem_of_find?_eq_some found) member (congrArg C.idOf same)]
      rfl

/-- Whatever the mempool went through, as long as no orphan was inserted, and whatever is drawn and rejected: the
transactions of a template are of the pool, and no two spend an output or consume a note in common. -/
theorem templates_conflictFree (reachable : Reachable C (fun m op => op.NoOrphan C m) m) {policy : Policy}
    {queries : List Nat} {selector : TemplateSelector} {kept current : List Transaction}
    (run : HandsOut C.idOf (buildSelector C.idOf (transactions m.transactionPool) m.transactionPool.readyTransactions
      policy queries) selector kept current) :
    (∀ tx ∈ kept, tx ∈ transactions m.transactionPool) ∧ kept.Pairwise fun a b =>
      (MutableTransaction.fromTx a).spends.Disjoint (MutableTransaction.fromTx b).spends ∧
        (MutableTransaction.fromTx a).consumedSerials.Disjoint (MutableTransaction.fromTx b).consumedSerials := by
  have ok := (inv_of_reachable reachable).pool
  have ready : ∀ key ∈ m.transactionPool.readyTransactions.searchTree, key.tx ∈ transactions m.transactionPool := by
    intro key member
    obtain ⟨tx, there, from'⟩ := ok.ready.keys key member
    obtain ⟨_, -, rfl⟩ := Option.map_eq_some_iff.mp from'
    exact List.mem_map.mpr ⟨_, Map.lookup_eq_some_iff.mp there, rfl⟩
  have inPool := (run.from (buildSelector_from queries ready fun tx member _ => member)).2
  obtain ⟨massOf, pool⟩ := poolOk_of_ok ok
  have once := List.pairwise_map.mp (run.ok (pool.buildSelector queries)).once
  refine ⟨inPool, once.imp_of_mem fun {a b} kept kept' apart => ?_⟩
  obtain ⟨tx, there, rfl⟩ := lookup_of_mem ok (inPool a kept)
  obtain ⟨tx', there', rfl⟩ := lookup_of_mem ok (inPool b kept')
  exact ⟨fun _ spent spent' => apart (ok.outpoints.unique there spent there' spent'),
    fun _ consumed consumed' => apart (ok.serials.unique there consumed there' consumed')⟩

open Mempool.Sample in
theorem templates_conflictFree_replaced :
    let start := buildSelector config.idOf (transactions replaced.transactionPool)
      replaced.transactionPool.readyTransactions ⟨1000, 10, 10, by decide, by decide⟩ []
    (start.selectTransactions config.idOf []).2 = [spender 2] ∧ spender 2 ∈ transactions replaced.transactionPool := by
  intro start
  have batch : (start.selectTransactions config.idOf []).2 = [spender 2] := by decide +kernel
  have first : Reachable config (fun m op => op.NoOrphan config m) ((submit 1 7).run config .empty).2 :=
    .step .empty ⟨rfl, fun _ => rfl⟩ fun _ => rfl
  have inPool := (templates_conflictFree (m := replaced) (.step first ⟨rfl, fun _ => rfl⟩ fun _ => rfl)
    (.select [] (.start : HandsOut config.idOf start start [] []))).1
  exact ⟨batch, inPool _ (by rw [batch]; exact .head _)⟩

end Mempool

end Marigold.Mining
