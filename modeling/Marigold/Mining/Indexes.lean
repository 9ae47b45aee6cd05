import Marigold.Lib.Owners
import Marigold.Mining.Mempool

/-!
# The indexes of the transactions pool

What the pool's own methods keep: each outpoint and each serial is owned by the transaction of the pool that
takes it, the estimated size is the sum of the sizes, the frontier holds keys of transactions of the pool, and
count and size are within the limits. None of the methods panics on such a pool.
-/

namespace Marigold.Mining

open Lib Call

variable {C : Config}

namespace Action

variable {S α : Type} {Q : α → S → Prop} {E : Failure RuleError → S → Prop} {s : S}


@[simp] theorem wp_check {result : RuleResult α} : wp (check result) Q E s ↔
    (∀ a, result = .ok a → Q a s) ∧ ∀ e, result = .error e → E (.rule e) s := by
  cases result with
  | ok a => simp [check, Call.wp, Call.ofExcept, Outcome.ofExcept]
  | error e => simp [check, Call.wp, Call.ofExcept, Outcome.ofExcept, Outcome.reject]

theorem check_eq_ok {result : RuleResult α} {a : α} {s' : S} :
    (check result : Action S α) s = (.ok a, s') ↔ result = .ok a ∧ s' = s := by
  cases result with
  | ok b =>
    simp only [check, Call.ofExcept, Outcome.ofExcept, Prod.mk.injEq, Except.ok.injEq]
    exact and_congr_right fun _ => eq_comm
  | error e => simp [check, Call.ofExcept, Outcome.ofExcept, Outcome.reject]

@[simp] theorem wp_assert {holds : Bool} {Q : Unit → S → Prop} : wp (assert holds) Q E s ↔
    (holds = true → Q () s) ∧ (holds = false → E (.panic .unwrap) s) := by
  cases holds <;> simp [assert]

@[simp] theorem wp_expect_some {a : α} : wp (expect (some a)) Q E s ↔ Q a s := Iff.rfl

end Action

/-- A rule error, after which `P` holds; no panic. -/
def Rejects {S : Type} (P : S → Prop) (e : Failure RuleError) (s : S) : Prop := (∃ rule, e = .rule rule) ∧ P s

/-! ## The frontier -/

theorem compareOfLessAndEq_self {α : Type} [LT α] [DecidableLT α] [DecidableEq α] {a : α} (irrefl : ¬a < a) :
    compareOfLessAndEq a a = .eq := by rw [compareOfLessAndEq, if_neg irrefl, if_pos rfl]

namespace FeerateTransactionKey

theorem cmp_self (key : FeerateTransactionKey) : key.cmp C key = .eq := by
  rw [cmp, C.compareWeights_self, compareOfLessAndEq_self (UInt64.lt_irrefl key.fee),
    compareOfLessAndEq_self (BitVec.lt_irrefl (C.idOf key.tx))]
  rfl

theorem id_of_cmp {a b : FeerateTransactionKey} (same : a.cmp C b = .eq) : C.idOf a.tx = C.idOf b.tx := by
  rw [cmp, Ordering.then_eq_eq, Ordering.then_eq_eq] at same
  have ids := same.2.2
  rw [compareOfLessAndEq] at ids
  split at ids
  · cases ids
  · split at ids
    next equal => exact equal
    · cases ids

end FeerateTransactionKey

namespace Frontier

theorem place_perm (key : FeerateTransactionKey) (tree : List FeerateTransactionKey) :
    (place C key tree).Perm (key :: tree) := by
  induction tree with
  | nil => exact .refl _
  | cons other rest ih =>
    rw [place]
    split
    · exact .refl _
    · exact (ih.cons other).trans (List.Perm.swap key other rest)

/-- The keys are of transactions of the pool, each there once. -/
structure Holds (C : Config) (all : MempoolTransactionCollection) (F : Frontier) : Prop where
  once : (F.searchTree.map fun key => C.idOf key.tx).Nodup
  keys : ∀ key ∈ F.searchTree, ∃ tx, all.lookup (C.idOf key.tx) = some tx ∧
    FeerateTransactionKey.fromTx C tx.mtx = some key
  total : F.totalMass = (F.searchTree.map FeerateTransactionKey.mass).sum

namespace Holds

variable {all : MempoolTransactionCollection} {F : Frontier} {id : TransactionId} {tx : MempoolTransaction}
  {key other : FeerateTransactionKey}

variable (holds : F.Holds C all)

include holds

section

variable (there : all.lookup (C.idOf key.tx) = some tx) (from' : FeerateTransactionKey.fromTx C tx.mtx = some key)

include there from'

theorem unique (member : other ∈ F.searchTree) (same : C.idOf other.tx = C.idOf key.tx) : other = key := by
  obtain ⟨tx', there', from''⟩ := holds.keys other member
  rw [same, there] at there'
  cases there'
  exact Option.some.inj (from''.symm.trans from')

theorem any_iff : (F.searchTree.any fun other => other.cmp C key = .eq) = true ↔ key ∈ F.searchTree := by
  rw [List.any_eq_true]
  constructor
  · rintro ⟨other, member, same⟩
    have equal := holds.unique there from' member (FeerateTransactionKey.id_of_cmp (of_decide_eq_true same))
    exact equal ▸ member
  · intro member
    exact ⟨key, member, decide_eq_true key.cmp_self⟩

end

theorem grow (fresh : all.lookup id = none) (tx : MempoolTransaction) : F.Holds C (all.insert id tx) := by
  refine ⟨holds.once, fun key member => ?_, holds.total⟩
  obtain ⟨tx', there, from'⟩ := holds.keys key member
  exact ⟨tx', Map.lookup_insert_of_new fresh there, from'⟩

theorem replace {old new : MempoolTransaction} (there : all.lookup id = some old)
    (same : FeerateTransactionKey.fromTx C new.mtx = FeerateTransactionKey.fromTx C old.mtx) :
    F.Holds C (all.insert id new) := by
  refine ⟨holds.once, fun key member => ?_, holds.total⟩
  obtain ⟨tx, found, from'⟩ := holds.keys key member
  rw [Map.lookup_insert_eq]
  split
  next here =>
    rw [here, there] at found
    cases found
    exact ⟨new, rfl, same.trans from'⟩
  · exact ⟨tx, found, from'⟩

variable (there : all.lookup (C.idOf key.tx) = some tx) (from' : FeerateTransactionKey.fromTx C tx.mtx = some key)

include there from'

theorem insert : (F.insert C key).Holds C all := by
  rw [Frontier.insert]
  split
  · exact holds
  next absent =>
    rw [holds.any_iff there from'] at absent
    have perm := (place_perm key F.searchTree : (place C key F.searchTree).Perm _)
    refine ⟨?_, fun other member => ?_, ?_⟩
    · rw [(perm.map _).nodup_iff, List.map_cons, List.nodup_cons]
      refine ⟨fun same => ?_, holds.once⟩
      obtain ⟨other, member, same⟩ := List.mem_map.mp same
      exact absent (holds.unique there from' member same ▸ member)
    · rcases List.mem_cons.mp (perm.mem_iff.mp member) with rfl | before
      · exact ⟨tx, there, from'⟩
      · exact holds.keys other before
    · rw [(perm.map _).sum_eq, List.map_cons, List.sum_cons, holds.total, Nat.add_comm]

theorem remove : ∃ F', F.remove C key = .ok F' ∧ F'.Holds C (all.erase (C.idOf key.tx)) := by
  have others : ∀ other ∈ F.searchTree, C.idOf other.tx ≠ C.idOf key.tx →
      ∃ tx, (all.erase (C.idOf key.tx)).lookup (C.idOf other.tx) = some tx ∧
        FeerateTransactionKey.fromTx C tx.mtx = some other := by
    intro other member different
    obtain ⟨tx', there', from''⟩ := holds.keys other member
    refine ⟨tx', ?_, from''⟩
    rw [Map.lookup_erase_eq, if_neg different, there']
  have once : F.searchTree.Nodup := List.Nodup.of_map _ holds.once
  rw [Frontier.remove]
  split
  next present =>
    rw [holds.any_iff there from'] at present
    have same : (F.searchTree.filter fun other => other.cmp C key ≠ .eq) = F.searchTree.erase key := by
      rw [once.erase_eq_filter]
      refine List.filter_congr fun other member => ?_
      by_cases equal : other = key
      · simp [equal, FeerateTransactionKey.cmp_self]
      · have differs : other.cmp C key ≠ .eq := fun same =>
          equal (holds.unique there from' member (FeerateTransactionKey.id_of_cmp same))
        simp [equal, differs]
    have perm := List.perm_cons_erase present
    have total := holds.total
    rw [(perm.map _).sum_eq, List.map_cons, List.sum_cons] at total
    rw [if_neg (by omega), same]
    refine ⟨_, rfl, holds.once.sublist (List.erase_sublist.map _), fun other member => ?_, ?_⟩
    · have inside := (once.mem_erase_iff.mp member)
      exact others other inside.2 fun ids => inside.1 (holds.unique there from' inside.2 ids)
    · change F.totalMass - key.mass = ((F.searchTree.erase key).map FeerateTransactionKey.mass).sum
      omega
  next absent =>
    rw [holds.any_iff there from'] at absent
    refine ⟨F, rfl, holds.once, fun other member => ?_, holds.total⟩
    exact others other member fun ids => absent (holds.unique there from' member ids ▸ member)

end Holds

end Frontier

/-! ## The pool -/

namespace TransactionsPool

structure Ok (C : Config) (pool : TransactionsPool) : Prop where
  ids : ∀ id tx, pool.allTransactions.lookup id = some tx → tx.mtx.id C = id
  populated : ∀ id tx, pool.allTransactions.lookup id = some tx → (tx.mtx.calculatedFeerate C).isSome
  outpoints : Owns (fun tx => tx.mtx.spends) pool.allTransactions pool.outpointOwnerId
  serials : Owns (fun tx => tx.mtx.consumedSerials) pool.allTransactions pool.serialOwnerId
  size : pool.estimatedSize = Map.total (fun tx => C.estimatedBytes tx.mtx) pool.allTransactions
  count : pool.len ≤ C.maximumTransactionCount
  bytes : pool.estimatedSize ≤ C.mempoolSizeLimit
  parents : ∀ id, (pool.parentTransactions.lookup id).isSome → (pool.allTransactions.lookup id).isSome
  ready : pool.readyTransactions.Holds C pool.allTransactions

variable {pool : TransactionsPool} {id : TransactionId} {tx : MempoolTransaction} {size : Nat}
  {new transaction : MutableTransaction} {ids : List TransactionId}

theorem empty_ok : Ok C empty := by
  refine ⟨?_, ?_, Owns.empty, Owns.empty, rfl, Nat.zero_le _, Nat.zero_le _, ?_, List.nodup_nil, ?_, rfl⟩
  · intro id tx there
    cases there
  · intro id tx there
    cases there
  · intro id there
    cases there
  · intro key member
    cases member

theorem fromTx_of_populated (populated : (tx.mtx.calculatedFeerate C).isSome) :
    ∃ key, FeerateTransactionKey.fromTx C tx.mtx = some key ∧ C.idOf key.tx = tx.mtx.id C := by
  obtain ⟨feerate, known⟩ := Option.isSome_iff_exists.mp populated
  exact ⟨_, by rw [FeerateTransactionKey.fromTx, known]; rfl, rfl⟩

/-- With other edges and another frontier, if these are in order. -/
theorem Ok.relink (ok : pool.Ok C) {parents : TransactionsEdges} {ready : Frontier} (chained : TransactionsEdges)
    (known : ∀ id, (parents.lookup id).isSome → (pool.allTransactions.lookup id).isSome)
    (holds : ready.Holds C pool.allTransactions) :
    Ok C { pool with parentTransactions := parents, chainedTransactions := chained, readyTransactions := ready } :=
  ⟨ok.ids, ok.populated, ok.outpoints, ok.serials, ok.size, ok.count, ok.bytes, known, holds⟩

/-- Only the edges and the frontier are different, and they are in order. -/
structure Relinked (C : Config) (pool pool' : TransactionsPool) : Prop where
  all : pool'.allTransactions = pool.allTransactions
  ok : pool'.Ok C
  chained : pool'.chainedTransactions = pool.chainedTransactions

theorem insertReady_spec (ok : pool.Ok C) (there : pool.allTransactions.lookup id = some tx) :
    wp (insertReady C tx) (fun _ => Relinked C pool) (fun _ _ => False) pool := by
  obtain ⟨key, from', same⟩ := fromTx_of_populated (ok.populated id tx there)
  rw [ok.ids id tx there] at same
  simp only [insertReady, from', wp_bind, Action.wp_expect_some, wp_update]
  exact ⟨rfl, ok.relink _ ok.parents (ok.ready.insert (same ▸ there) from'), rfl⟩

theorem unlinkChain_spec (ok : pool.Ok C) (id chain : TransactionId) :
    wp (unlinkChain C id chain) (fun _ => Relinked C pool) (fun _ _ => False) pool := by
  simp only [unlinkChain, wp_bind, wp_read]
  cases linked : pool.parentTransactions.lookup chain with
  | none => exact ⟨rfl, ok, rfl⟩
  | some parents =>
    obtain ⟨tx, there⟩ := Option.isSome_iff_exists.mp (ok.parents chain (by rw [linked]; rfl))
    -- the parents of `chain` are the only change; it is in the pool
    have ok' : Ok C { pool with parentTransactions := pool.parentTransactions.insert chain (parents.erase id) } := by
      refine ok.relink _ (fun other known => ?_) ok.ready
      rw [Map.lookup_insert_eq] at known
      split at known
      next same => rw [same, there]; rfl
      · exact ok.parents other known
    simp only [wp_bind, wp_update]
    split
    · rw [there]
      simp only [wp_bind, Action.wp_expect_some]
      refine wp_total (insertReady_spec ok' there) fun _ _ done => ?_
      exact ⟨done.all, done.ok, done.chained⟩
    · exact ⟨rfl, ok', rfl⟩

theorem unlinkChains_spec (ok : pool.Ok C) (id : TransactionId) (chains : List TransactionId) :
    wp (forEach (unlinkChain C id) chains) (fun _ => Relinked C pool) (fun _ _ => False) pool := by
  refine wp_forEach (fun _ => Relinked C pool) (fun chain rest pool' before => ?_) ⟨rfl, ok, rfl⟩
  refine wp_total (unlinkChain_spec before.ok id chain) fun _ _ done => ?_
  exact ⟨done.all.trans before.all, done.ok, done.chained.trans before.chained⟩

theorem edgesOf_unchain (chained : TransactionsEdges) (parent p : TransactionId) :
    Pool.edgesOf (unchain id chained parent) p =
      if p = parent then (Pool.edgesOf chained p).erase id else Pool.edgesOf chained p := by
  rw [unchain]
  split
  next chains found =>
    rw [Pool.edgesOf, Map.lookup_insert_eq]
    split
    next same => rw [same, Pool.edgesOf, found, Option.getD_some, Option.getD_some]
    · rfl
  next missing =>
    split
    next same => rw [same, Pool.edgesOf, missing, Option.getD_none, List.erase_nil]
    · rfl

theorem mem_edgesOf_unchain {chained : TransactionsEdges} {parents : List TransactionId} {p c : TransactionId}
    (other : c ≠ id) : c ∈ Pool.edgesOf (parents.foldl (unchain id) chained) p ↔ c ∈ Pool.edgesOf chained p := by
  induction parents generalizing chained with
  | nil => exact Iff.rfl
  | cons parent rest ih =>
    rw [List.foldl_cons, ih, edgesOf_unchain]
    split
    · exact List.mem_erase_of_ne other
    · exact Iff.rfl

/-- Taken out of the pool and its indexes. -/
structure Removed (C : Config) (pool : TransactionsPool) (id : TransactionId) (tx : MempoolTransaction)
    (pool' : TransactionsPool) : Prop where
  there : pool.allTransactions.lookup id = some tx
  all : pool'.allTransactions = pool.allTransactions.erase id
  ok : pool'.Ok C
  chained : ∀ p c, p ≠ id → c ≠ id →
    (c ∈ Pool.edgesOf pool'.chainedTransactions p ↔ c ∈ Pool.edgesOf pool.chainedTransactions p)

theorem length_erase (there : pool.allTransactions.lookup id = some tx) :
    (pool.allTransactions.erase id).entries.length + 1 = pool.len := by
  have one := Map.total_erase (fun _ => 1) there
  rw [Map.total_one, Map.total_one] at one
  exact one

theorem wp_subtractSize {Q : Unit → TransactionsPool → Prop} {E : Failure RuleError → TransactionsPool → Prop}
    (enough : ¬pool.estimatedSize < size) :
    wp (subtractSize size) Q E pool ↔ Q () { pool with estimatedSize := pool.estimatedSize - size } := by
  simp only [subtractSize, wp_bind, wp_read, if_neg enough, wp_update]

/-- The last part of a removal: the edges of the transaction are gone already. -/
theorem takeOut_spec (ok : pool.Ok C) (there : pool.allTransactions.lookup id = some tx)
    (unlinked : pool.parentTransactions.lookup id = none) :
    wp (do
      update fun pool => { pool with allTransactions := pool.allTransactions.erase id }
      removeReady C tx
      update fun pool =>
        { pool with outpointOwnerId := Map.deleteMany pool.outpointOwnerId tx.mtx.spends
                    serialOwnerId := Map.deleteMany pool.serialOwnerId tx.mtx.consumedSerials }
      subtractSize (C.estimatedBytes tx.mtx)
      let pool ← read fun pool => pool
      Action.assert (pool.allTransactions.entries ≠ [] ∨ pool.estimatedSize = 0)
      pure tx)
      (fun tx' pool' => tx' = tx ∧ pool'.allTransactions = pool.allTransactions.erase id ∧ pool'.Ok C ∧
        pool'.chainedTransactions = pool.chainedTransactions) (fun _ _ => False) pool := by
  obtain ⟨key, from', same⟩ := fromTx_of_populated (ok.populated id tx there)
  rw [ok.ids id tx there] at same
  obtain ⟨ready, removed, holds⟩ := ok.ready.remove (same ▸ there) from'
  have size := ok.size
  have less := Map.total_erase (fun tx => C.estimatedBytes tx.mtx) there
  have bytes := ok.bytes
  have count := ok.count
  have shorter := length_erase there
  have enough : ¬pool.estimatedSize < C.estimatedBytes tx.mtx := by omega
  simp only [removeReady, from', removed, wp_bind, wp_update, wp_read, Action.wp_expect_some, wp_ofExcept_ok]
  refine (wp_subtractSize ?_).mpr ?_
  · exact enough
  simp only [wp_bind, wp_read, Action.wp_assert, wp_pure, decide_eq_true_eq, decide_eq_false_iff_not]
  refine ⟨fun _ => ⟨trivial, trivial, ?_, trivial⟩, fun wrong => wrong ?_⟩
  · refine ⟨fun id' tx' found => ok.ids id' tx' (Map.lookup_of_erase found),
      fun id' tx' found => ok.populated id' tx' (Map.lookup_of_erase found), ok.outpoints.take there,
      ok.serials.take there, ?_, ?_, ?_, fun id' known => ?_, same ▸ holds⟩
    · change pool.estimatedSize - C.estimatedBytes tx.mtx = Map.total _ (pool.allTransactions.erase id)
      omega
    · change (pool.allTransactions.erase id).entries.length ≤ _
      omega
    · change pool.estimatedSize - C.estimatedBytes tx.mtx ≤ _
      omega
    · have before := ok.parents id' known
      rw [Map.lookup_erase_eq, if_neg]
      · exact before
      · rintro rfl
        rw [unlinked] at known
        cases known
  · -- an empty pool has no size
    by_cases empty : (pool.allTransactions.erase id).entries = []
    · right
      have none : Map.total (fun tx : MempoolTransaction => C.estimatedBytes tx.mtx)
          (pool.allTransactions.erase id) = 0 := by
        rw [Map.total, empty]
        rfl
      omega
    · exact .inl empty

theorem removeTransaction_spec (ok : pool.Ok C) (id : TransactionId) :
    wp (removeTransaction C id) (fun tx => Removed C pool id tx)
      (Rejects fun pool' => pool.allTransactions.lookup id = none ∧ pool'.allTransactions = pool.allTransactions ∧
        pool'.Ok C) pool := by
  simp only [removeTransaction, wp_bind, wp_update, wp_read]
  have ok' : Ok C (unlinkParents id pool) := ok.relink _ ok.parents ok.ready
  refine wp_total (unlinkChains_spec ok' id _) fun _ pool₁ done => ?_
  have all := done.all
  have erased : Ok C { pool₁ with parentTransactions := pool₁.parentTransactions.erase id
                                  chainedTransactions := pool₁.chainedTransactions.erase id } := by
    refine done.ok.relink _ (fun other known => done.ok.parents other ?_) done.ok.ready
    rw [Map.lookup_erase_eq] at known
    split at known
    · cases known
    · exact known
  simp only [wp_bind, wp_update, wp_read]
  cases there : pool₁.allTransactions.lookup id with
  | none => exact ⟨⟨_, rfl⟩, all ▸ there, all, erased⟩
  | some tx =>
    have unlinked : (pool₁.parentTransactions.erase id).lookup id = none := by
      rw [Map.lookup_erase_eq, if_pos rfl]
    refine wp_total (takeOut_spec erased there unlinked) fun tx' pool' done' => ?_
    obtain ⟨rfl, all', ok'', chained⟩ := done'
    refine ⟨all ▸ there, all'.trans (congrArg (AList.erase id) all), ok'', fun p c notP notC => ?_⟩
    have edges : Pool.edgesOf pool'.chainedTransactions p =
        Pool.edgesOf (unlinkParents id pool).chainedTransactions p := by
      rw [chained, ← done.chained, Pool.edgesOf, Map.lookup_erase_eq, if_neg notP, Pool.edgesOf]
    rw [edges]
    exact mem_edgesOf_unchain notC

theorem calculatedFeerate_of_populated {mtx : MutableTransaction} (populated : mtx.isFullyPopulated = true) :
    (mtx.calculatedFeerate C).isSome := by
  simp only [MutableTransaction.isFullyPopulated, Bool.and_eq_true] at populated
  obtain ⟨fee, knownFee⟩ := Option.isSome_iff_exists.mp populated.1.2
  obtain ⟨masses, knownMasses⟩ := Option.isSome_iff_exists.mp populated.2
  rw [MutableTransaction.calculatedFeerate, knownFee, knownMasses]
  rfl

/-- What a transaction needs to be added. -/
structure Addable (C : Config) (pool : TransactionsPool) (tx : MempoolTransaction) : Prop where
  fresh : pool.allTransactions.lookup (tx.mtx.id C) = none
  populated : tx.mtx.isFullyPopulated = true
  room : pool.hasRoomFor C (C.estimatedBytes tx.mtx) = true
  outpoints : ∀ outpoint ∈ tx.mtx.spends, pool.outpointOwnerId.lookup outpoint = none
  serials : ∀ serial ∈ tx.mtx.consumedSerials, pool.serialOwnerId.lookup serial = none

theorem Addable.ok (addable : Addable C pool tx) (ok : pool.Ok C) {ready : Frontier}
    (holds : ready.Holds C (pool.allTransactions.insert (tx.mtx.id C) tx)) (parents chained : TransactionsEdges)
    (known : ∀ id, (parents.lookup id).isSome → id = tx.mtx.id C ∨ (pool.parentTransactions.lookup id).isSome) :
    Ok C (addEntries C tx (C.estimatedBytes tx.mtx)
      { pool with parentTransactions := parents, chainedTransactions := chained, readyTransactions := ready }) := by
  have room := addable.room
  simp only [hasRoomFor, decide_eq_true_eq] at room
  refine ⟨fun id tx' found => ?_, fun id tx' found => ?_, ok.outpoints.put addable.fresh addable.outpoints,
    ok.serials.put addable.fresh addable.serials, ?_, ?_, room.2, fun id there => ?_, holds⟩
  · rcases Map.lookup_of_insert found with ⟨rfl, rfl⟩ | before
    · rfl
    · exact ok.ids id tx' before
  · rcases Map.lookup_of_insert found with ⟨rfl, rfl⟩ | before
    · exact calculatedFeerate_of_populated addable.populated
    · exact ok.populated id tx' before
  · change pool.estimatedSize + C.estimatedBytes tx.mtx = Map.total _ (pool.allTransactions.insert (tx.mtx.id C) tx)
    rw [Map.total_insert _ addable.fresh, ok.size, Nat.add_comm]
  · have one := Map.total_insert (v := tx) (fun _ => 1) addable.fresh
    rw [Map.total_one, Map.total_one] at one
    change (pool.allTransactions.insert (tx.mtx.id C) tx).entries.length ≤ _
    have less : pool.allTransactions.entries.length < C.maximumTransactionCount := room.1
    omega
  · change ((pool.allTransactions.insert (tx.mtx.id C) tx).lookup id).isSome
    rw [Map.lookup_insert_eq]
    split
    · rfl
    next other => exact ok.parents id ((known id there).resolve_left other)

theorem addMempoolTransaction_spec (ok : pool.Ok C) (addable : Addable C pool tx) :
    wp (addMempoolTransaction C tx (C.estimatedBytes tx.mtx))
      (fun _ pool' => pool'.Ok C ∧ pool'.allTransactions = pool.allTransactions.insert (tx.mtx.id C) tx)
      (fun _ _ => False) pool := by
  obtain ⟨key, from', same⟩ := fromTx_of_populated (calculatedFeerate_of_populated (C := C) addable.populated)
  have grown := ok.ready.grow addable.fresh tx
  have inserted := grown.insert (by rw [same, Map.lookup_insert_eq, if_pos rfl]) from'
  have linked : ∀ parents id, ((pool.parentTransactions.insert (tx.mtx.id C) parents).lookup id).isSome →
      id = tx.mtx.id C ∨ (pool.parentTransactions.lookup id).isSome := by
    intro parents id there
    rw [Map.lookup_insert_eq] at there
    split at there
    next here => exact .inl here
    · exact .inr there
  have absent := Pool.has_eq_false.mpr addable.fresh
  simp only [addMempoolTransaction, wp_bind, wp_read, Action.wp_assert, absent, addable.populated,
    Bool.not_false, wp_update, forall_const, Bool.true_eq_false, false_implies, and_true]
  split
  · simp only [insertReady, from', wp_bind, Action.wp_expect_some, wp_update]
    exact ⟨addable.ok ok inserted _ _ (linked _), rfl⟩
  · exact ⟨addable.ok ok grown _ _ (linked _), rfl⟩

/-- The transaction as it is in the pool, validated anew. -/
structure Revalidates (C : Config) (old new : MutableTransaction) : Prop where
  tx : new.tx = old.tx
  feerate : new.calculatedFeerate C = old.calculatedFeerate C
  size : C.estimatedBytes new = C.estimatedBytes old

theorem Revalidates.fromTx {old : MutableTransaction} (again : Revalidates C old new) :
    FeerateTransactionKey.fromTx C new = FeerateTransactionKey.fromTx C old := by
  rw [FeerateTransactionKey.fromTx, FeerateTransactionKey.fromTx, again.feerate, again.tx]

theorem updateRevalidatedTransaction_spec (ok : pool.Ok C)
    (same : ∀ old, pool.allTransactions.lookup (new.id C) = some old → Revalidates C old.mtx new) :
    wp (updateRevalidatedTransaction C new) (fun _ pool' => pool'.Ok C ∧
        ∀ id, (pool'.allTransactions.lookup id).isSome = (pool.allTransactions.lookup id).isSome)
      (fun _ _ => False) pool := by
  simp only [updateRevalidatedTransaction, wp_bind, wp_read]
  cases there : pool.allTransactions.lookup (new.id C) with
  | none => exact ⟨ok, fun _ => rfl⟩
  | some old =>
    have again := same old there
    have less := Map.total_erase (fun tx => C.estimatedBytes tx.mtx) there
    have size := ok.size
    have enough : ¬pool.estimatedSize < C.estimatedBytes old.mtx := by omega
    have kept : pool.estimatedSize - C.estimatedBytes old.mtx + C.estimatedBytes new = pool.estimatedSize := by
      rw [again.size]
      omega
    have lookup : ∀ id, (pool.allTransactions.insert (new.id C) { old with mtx := new }).lookup id =
        if id = new.id C then some { old with mtx := new } else pool.allTransactions.lookup id :=
      fun id => Map.lookup_insert_eq _ _ _ _
    rw [wp_bind, wp_subtractSize enough]
    simp only [wp_bind, wp_update, wp_pure, kept]
    refine ⟨⟨fun id tx found => ?_, fun id tx found => ?_, ok.outpoints.replace there ?_,
      ok.serials.replace there ?_, ?_, ?_, ok.bytes, fun id known => ?_, ok.ready.replace there again.fromTx⟩,
      fun id => ?_⟩
    · rcases Map.lookup_of_insert found with ⟨rfl, rfl⟩ | before
      · rfl
      · exact ok.ids id tx before
    · rcases Map.lookup_of_insert found with ⟨rfl, rfl⟩ | before
      · rw [again.feerate]
        exact ok.populated _ old there
      · exact ok.populated id tx before
    · simp only [MutableTransaction.spends, again.tx]
    · simp only [MutableTransaction.consumedSerials, again.tx]
    · -- the sizes are as before
      have gone : (pool.allTransactions.erase (new.id C)).lookup (new.id C) = none := by
        rw [Map.lookup_erase_eq, if_pos rfl]
      have back : ∀ id, ((pool.allTransactions.erase (new.id C)).insert (new.id C) { old with mtx := new }).lookup id =
          (pool.allTransactions.insert (new.id C) { old with mtx := new }).lookup id := by
        intro id
        rw [lookup, Map.lookup_insert_eq, Map.lookup_erase_eq]
        split <;> simp_all
      change pool.estimatedSize = Map.total _ (pool.allTransactions.insert (new.id C) { old with mtx := new })
      rw [← Map.total_eq_of_lookup back, Map.total_insert _ gone, again.size]
      omega
    · have keys : (pool.allTransactions.insert (new.id C) { old with mtx := new }).entries.length =
          pool.allTransactions.entries.length := by
        have shorter := length_erase there
        rw [AList.entries_insert, List.length_cons]
        exact shorter
      exact keys.le.trans ok.count
    · have before := ok.parents id known
      rw [lookup]
      split
      · rfl
      · exact before
    · rw [lookup]
      split
      next here =>
        rw [here, there]
        rfl
      · rfl

/-! ## Making room -/

/-- The size of a transaction of the pool. -/
def sizeAt (C : Config) (pool : TransactionsPool) (id : TransactionId) : Nat :=
  (pool.allTransactions.lookup id).elim 0 fun tx => C.estimatedBytes tx.mtx

/-- Transactions of the pool, none of which is or has chained to it a parent of `transaction`. -/
structure Evictable (C : Config) (pool : TransactionsPool) (transaction : MutableTransaction)
    (ids : List TransactionId) : Prop where
  once : ids.Nodup
  inside : ∀ id ∈ ids, (pool.allTransactions.lookup id).isSome
  unrelated : ∀ id ∈ ids, transaction.hasParentInSet
    (Pool.getRedeemerIdsInPool pool.allTransactions pool.chainedTransactions id ++ [id]) = false

namespace Evictable

variable {transaction : MutableTransaction} {ids : List TransactionId}

variable (evictable : Evictable C pool transaction ids)

include evictable

theorem ones : (ids.map fun id => (pool.allTransactions.lookup id).elim 0 fun _ => 1) = ids.map fun _ => 1 := by
  refine List.map_congr_left fun id member => ?_
  obtain ⟨tx, found⟩ := Option.isSome_iff_exists.mp (evictable.inside id member)
  rw [found]
  rfl

theorem length_le : ids.length ≤ pool.len := by
  have less := Map.sum_le_total (fun _ => 1) pool.allTransactions evictable.once
  rw [evictable.ones, Map.total_one, List.map_const', List.sum_replicate_nat, Nat.mul_one] at less
  exact less

theorem size_le (ok : pool.Ok C) : (ids.map (pool.sizeAt C)).sum ≤ pool.estimatedSize := by
  rw [ok.size]
  exact Map.sum_le_total _ _ evictable.once

theorem concat (fresh : id ∉ ids) (there : (pool.allTransactions.lookup id).isSome)
    (unrelated : transaction.hasParentInSet
      (Pool.getRedeemerIdsInPool pool.allTransactions pool.chainedTransactions id ++ [id]) = false) :
    Evictable C pool transaction (ids ++ [id]) := by
  refine ⟨?_, fun other member => ?_, fun other member => ?_⟩
  · refine List.nodup_append.mpr ⟨evictable.once, List.nodup_singleton id, ?_⟩
    rintro a inside b here rfl
    exact fresh (List.mem_singleton.mp here ▸ inside)
  · rcases List.mem_append.mp member with before | now
    · exact evictable.inside other before
    · rw [List.mem_singleton.mp now]
      exact there
  · rcases List.mem_append.mp member with before | now
    · exact evictable.unrelated other before
    · rw [List.mem_singleton.mp now]
      exact unrelated

end Evictable

/-- Once these transactions are out, there is room for `transaction`. -/
structure MakesRoom (C : Config) (pool : TransactionsPool) (transaction : MutableTransaction) (size : Nat)
    (ids : List TransactionId) : Prop where
  evictable : Evictable C pool transaction ids
  count : pool.len + 1 - ids.length ≤ C.maximumTransactionCount
  bytes : pool.estimatedSize + size - (ids.map (pool.sizeAt C)).sum ≤ C.mempoolSizeLimit

theorem selectForEviction_spec (ok : pool.Ok C) {threshold : UInt64 × Nat} {keys : List FeerateTransactionKey}
    (sub : keys ⊆ pool.readyTransactions.searchTree) (once : (keys.map fun key => C.idOf key.tx).Nodup)
    (evictable : Evictable C pool transaction ids) (apart : ∀ key ∈ keys, C.idOf key.tx ∉ ids) :
    (∃ e, selectForEviction C pool transaction size threshold keys ids (ids.map (pool.sizeAt C)).sum =
      .error (.rule e)) ∨
    ∃ chosen, selectForEviction C pool transaction size threshold keys ids (ids.map (pool.sizeAt C)).sum =
      .ok chosen ∧ MakesRoom C pool transaction size chosen := by
  induction keys generalizing ids with
  | nil => exact .inl ⟨_, rfl⟩
  | cons key rest ih =>
    rw [List.cons_subset] at sub
    rw [List.map_cons, List.nodup_cons] at once
    rw [List.forall_mem_cons] at apart
    obtain ⟨tx, found, -⟩ := ok.ready.keys key sub.1
    obtain ⟨feerate, known⟩ := Option.isSome_iff_exists.mp (ok.populated _ tx found)
    have same : tx.mtx.id C = C.idOf key.tx := ok.ids _ tx found
    have skip := ih sub.2 once.2 evictable apart.2
    have expected : (Outcome.expect (some tx) : Outcome RuleError MempoolTransaction) = .ok tx := rfl
    have expected' : (Outcome.expect (some feerate) : Outcome RuleError (UInt64 × Nat)) = .ok feerate := rfl
    simp only [selectForEviction, found, known, expected, expected', same, bind, Except.bind]
    split
    · exact skip
    · split
      · exact skip
      next unrelated =>
        split
        · exact .inl ⟨_, rfl⟩
        · have more := evictable.concat apart.1 (by rw [found]; rfl) (Bool.eq_false_of_not_eq_true unrelated)
          have sum : (ids.map (pool.sizeAt C)).sum + C.estimatedBytes tx.mtx =
              ((ids ++ [C.idOf key.tx]).map (pool.sizeAt C)).sum := by
            rw [List.map_append, List.sum_append, List.map_singleton, List.sum_singleton, sizeAt, found]
            rfl
          have count := more.length_le
          have bytes := more.size_le ok
          rw [sum, if_neg (by omega)]
          split
          next room => exact .inr ⟨_, rfl, more, room.1, room.2⟩
          · refine ih sub.2 once.2 more fun other member => ?_
            rw [List.mem_append, List.mem_singleton, not_or]
            refine ⟨apart.2 other member, fun same => once.1 ?_⟩
            exact same ▸ List.mem_map_of_mem member

theorem limitTransactionCount_spec (ok : pool.Ok C) (size : Nat)
    (populated : (transaction.calculatedFeerate C).isSome) :
    (∃ e, limitTransactionCount C pool transaction size = .error (.rule e)) ∨
      ∃ chosen, limitTransactionCount C pool transaction size = .ok chosen ∧
        MakesRoom C pool transaction size chosen := by
  have nothing : Evictable C pool transaction [] :=
    ⟨List.nodup_nil, fun _ member => (nomatch member), fun _ member => nomatch member⟩
  rw [limitTransactionCount]
  split
  next room =>
    simp only [hasRoomFor, decide_eq_true_eq] at room
    exact .inr ⟨[], rfl, nothing, room.1, room.2⟩
  · obtain ⟨feerate, known⟩ := Option.isSome_iff_exists.mp populated
    rw [known]
    exact selectForEviction_spec ok (List.Subset.refl _) ok.ready.once nothing fun _ _ => List.not_mem_nil

theorem MakesRoom.hasRoomFor {pool' : TransactionsPool} (makes : MakesRoom C pool transaction size ids) (ok : pool.Ok C)
    (ok' : pool'.Ok C)
    (sub : ∀ id tx, pool'.allTransactions.lookup id = some tx → pool.allTransactions.lookup id = some tx)
    (gone : ∀ id ∈ ids, pool'.allTransactions.lookup id = none) : pool'.hasRoomFor C size = true := by
  have fewer := Map.total_add_le_of_submap (fun _ => 1) sub makes.evictable.once gone
  have less := Map.total_add_le_of_submap (fun tx => C.estimatedBytes tx.mtx) sub makes.evictable.once gone
  rw [makes.evictable.ones, Map.total_one, Map.total_one, List.map_const', List.sum_replicate_nat, Nat.mul_one] at fewer
  rw [← ok.size, ← ok'.size] at less
  change _ + (ids.map (pool.sizeAt C)).sum ≤ _ at less
  have count := makes.count
  have bytes := makes.bytes
  have few := makes.evictable.length_le
  have small := makes.evictable.size_le ok
  simp only [TransactionsPool.hasRoomFor, decide_eq_true_eq]
  change pool'.allTransactions.entries.length < _ ∧ _
  change ids.length ≤ pool.allTransactions.entries.length at few
  change pool.allTransactions.entries.length + 1 - ids.length ≤ _ at count
  omega

end TransactionsPool

end Marigold.Mining
