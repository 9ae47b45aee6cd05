import Marigold.Mining.Selectors

/-!
# Templates within the block limits

Whatever is drawn and whatever is rejected, each selector keeps account of what it handed out and was not told
to take back, and that stays within the limits of its policy. Transactions that are included by force are
not in that account.
-/

namespace Marigold.Mining

open Lib

def laneGas (txs : List Transaction) (lane : SubnetworkId) : Nat :=
  Quota.amountIn Transaction.subnetworkId (fun tx => tx.gas.toNat) txs lane

def lanesOf (txs : List Transaction) : List SubnetworkId := Quota.groups Transaction.subnetworkId txs

/-- Mass, number of lanes and gas per lane are within the policy. -/
structure WithinLimits (massOf : Transaction → Nat) (policy : Policy) (txs : List Transaction) : Prop where
  mass : (txs.map massOf).sum ≤ policy.maxBlockMass
  lanes : (lanesOf txs).length ≤ policy.lanesPerBlockLimit
  gas : ∀ lane, laneGas txs lane ≤ policy.gasPerLaneLimit

variable {idOf : Transaction → TransactionId} {massOf : Transaction → Nat} {policy : Policy}

namespace WithinLimits

variable {txs txs' : List Transaction}

theorem nil : WithinLimits massOf policy [] := ⟨Nat.zero_le _, Nat.zero_le _, fun _ => Nat.zero_le _⟩

variable (within : WithinLimits massOf policy txs)

include within

theorem perm (same : txs.Perm txs') : WithinLimits massOf policy txs' := by
  refine ⟨?_, ?_, fun lane => ?_⟩
  · rw [← (same.map massOf).sum_eq]
    exact within.mass
  · rw [lanesOf, ← (Quota.groups_perm same).length_eq]
    exact within.lanes
  · rw [laneGas, ← Quota.amountIn_perm same]
    exact within.gas lane

theorem sublist (fewer : txs'.Sublist txs) : WithinLimits massOf policy txs' :=
  ⟨((fewer.map massOf).sum_le_sum fun _ _ => Nat.zero_le _).trans within.mass,
    (Quota.groups_sublist fewer).trans within.lanes,
    fun lane => (Quota.amountIn_sublist fewer).trans (within.gas lane)⟩

theorem subperm (fewer : txs'.Subperm txs) : WithinLimits massOf policy txs' := by
  obtain ⟨middle, same, fewer⟩ := fewer
  exact (within.sublist fewer).perm same

end WithinLimits

/-! ## Lanes -/

/-- The lanes in use are those of the transactions, and within the policy. -/
structure LanesOk (policy : Policy) (lanes : LaneSelectionState) (txs : List Transaction) : Prop where
  tracks : Quota.Tracks Transaction.subnetworkId (fun tx => tx.gas.toNat) lanes txs
  few : (lanesOf txs).length ≤ policy.lanesPerBlockLimit
  gas : ∀ lane, laneGas txs lane ≤ policy.gasPerLaneLimit

namespace LanesOk

variable {lanes lanes' : LaneSelectionState} {tx : Transaction} {txs txs' : List Transaction}

theorem nil : LanesOk policy ∅ [] := ⟨Quota.Tracks.nil, Nat.zero_le _, fun _ => Nat.zero_le _⟩

theorem perm (ok : LanesOk policy lanes txs) (same : txs.Perm txs') : LanesOk policy lanes txs' := by
  refine ⟨ok.tracks.perm same, ?_, fun lane => ?_⟩
  · rw [lanesOf, ← (Quota.groups_perm same).length_eq]
    exact ok.few
  · rw [laneGas, ← Quota.amountIn_perm same]
    exact ok.gas lane

theorem laneGas_cons_le (ok : LanesOk policy lanes txs)
    (fits : laneGas txs tx.subnetworkId + tx.gas.toNat ≤ policy.gasPerLaneLimit) (lane : SubnetworkId) :
    laneGas (tx :: txs) lane ≤ policy.gasPerLaneLimit := by
  rw [laneGas, Quota.amountIn_cons]
  split
  next here => exact here ▸ fits
  · exact ok.gas lane

theorem trySelect (ok : LanesOk policy lanes txs)
    (selected : lanes.trySelect policy tx.subnetworkId tx.gas.toNat = some lanes') :
    LanesOk policy lanes' (tx :: txs) := by
  have here := ok.tracks tx.subnetworkId
  have room := policy.gasFits
  have taken := ok.tracks.take (a := tx)
  rw [Quota.countIn_cons, Quota.amountIn_cons, if_pos rfl, if_pos rfl] at taken
  unfold LaneSelectionState.trySelect at selected
  split at here
  next empty =>
    -- the first transaction in its lane
    have none : Quota.amountIn Transaction.subnetworkId (fun tx => tx.gas.toNat) txs tx.subnetworkId = 0 :=
      Quota.amountIn_eq_zero empty
    simp only [here] at selected
    split at selected
    · cases selected
    next fits =>
      rw [not_or, not_le, not_lt, ok.tracks.length] at fits
      cases selected
      rw [empty, none, Nat.zero_add, Nat.zero_add] at taken
      refine ⟨taken, ?_, ok.laneGas_cons_le ?_⟩
      · rw [lanesOf, Quota.length_groups_cons, if_pos empty]
        exact fits.1
      · rw [laneGas, none, Nat.zero_add]
        exact fits.2
  next occupied =>
    simp only [here] at selected
    split at selected
    · cases selected
    next fits =>
      cases selected
      refine ⟨taken, ?_, ok.laneGas_cons_le ?_⟩
      · rw [lanesOf, Quota.length_groups_cons, if_neg occupied]
        exact ok.few
      · rw [not_lt, saturatingAdd] at fits
        rw [laneGas]
        omega

theorem reject (ok : LanesOk policy lanes (tx :: txs)) :
    ∃ lanes', lanes.reject tx.subnetworkId tx.gas.toNat = some lanes' ∧ LanesOk policy lanes' txs := by
  have fewer : txs.Sublist (tx :: txs) := List.sublist_cons_self _ _
  have here := ok.tracks tx.subnetworkId
  have dropped := ok.tracks.drop
  rw [Quota.countIn_cons, Quota.amountIn_cons, if_pos rfl, if_pos rfl, if_neg (Nat.succ_ne_zero _)] at here
  unfold LaneSelectionState.reject
  simp only [here, Nat.add_sub_cancel]
  refine ⟨_, (apply_ite some _ _ _).symm, dropped, ?_, fun lane => ?_⟩
  · exact (Quota.groups_sublist fewer).trans ok.few
  · exact (Quota.amountIn_sublist fewer).trans (ok.gas lane)

end LanesOk

/-! ## Accounts -/

/-- The mass and the lanes a selector counts are those of the transactions it stands for. -/
structure Ledger (massOf : Transaction → Nat) (policy : Policy) (used : Nat) (lanes : LaneSelectionState)
    (txs : List Transaction) : Prop where
  mass : used = (txs.map massOf).sum
  fits : used ≤ policy.maxBlockMass
  lanes : LanesOk policy lanes txs

namespace Ledger

variable {used : Nat} {lanes lanes' : LaneSelectionState} {tx : Transaction} {txs txs' : List Transaction}

theorem within (ledger : Ledger massOf policy used lanes txs) : WithinLimits massOf policy txs :=
  ⟨ledger.mass ▸ ledger.fits, ledger.lanes.few, ledger.lanes.gas⟩

theorem nil : Ledger massOf policy 0 ∅ [] := ⟨rfl, Nat.zero_le _, LanesOk.nil⟩

theorem perm (ledger : Ledger massOf policy used lanes txs) (same : txs.Perm txs') :
    Ledger massOf policy used lanes txs' :=
  ⟨ledger.mass.trans (same.map massOf).sum_eq, ledger.fits, ledger.lanes.perm same⟩

theorem add (ledger : Ledger massOf policy used lanes txs) (fits : used + massOf tx ≤ policy.maxBlockMass)
    (selected : lanes.trySelect policy tx.subnetworkId tx.gas.toNat = some lanes') :
    Ledger massOf policy (used + massOf tx) lanes' (tx :: txs) :=
  ⟨by rw [List.map_cons, List.sum_cons, ledger.mass, Nat.add_comm], fits, ledger.lanes.trySelect selected⟩

theorem drop (ledger : Ledger massOf policy used lanes (tx :: txs)) :
    ∃ lanes', lanes.reject tx.subnetworkId tx.gas.toNat = some lanes' ∧ massOf tx ≤ used ∧
      Ledger massOf policy (used - massOf tx) lanes' txs := by
  obtain ⟨lanes', rejected, ok⟩ := ledger.lanes.reject
  have mass := ledger.mass
  have fits := ledger.fits
  rw [List.map_cons, List.sum_cons] at mass
  exact ⟨lanes', rejected, by omega, by omega, by omega, ok⟩

end Ledger

/-- What a selector can still hand out, what it handed out and was not told to take back, and what of that it
can still be told to take back. -/
structure Round (idOf : Transaction → TransactionId) (massOf : Transaction → Nat)
    (left : List FeerateTransactionKey) (selected : Map TransactionId FeerateTransactionKey)
    (taken current : List Transaction) : Prop where
  masses : ∀ key ∈ left, key.mass = massOf key.tx
  once : ((left.map FeerateTransactionKey.tx ++ taken).map idOf).Nodup
  recent : current.Subperm taken
  /-- The transactions of the round are known by their ids. -/
  known : ∀ tx ∈ current, ∃ key, selected.lookup (idOf tx) = some key ∧ key.tx = tx ∧ key.mass = massOf tx

namespace Round

variable {left left' : List FeerateTransactionKey} {selected : Map TransactionId FeerateTransactionKey}
  {taken current : List Transaction} {tx : Transaction}

theorem taken_once (round : Round idOf massOf left selected taken current) : (taken.map idOf).Nodup := by
  have once := round.once
  rw [List.map_append] at once
  exact once.of_append_right

theorem reject (round : Round idOf massOf left selected taken current) (member : tx ∈ current) :
    taken.Perm (tx :: taken.erase tx) ∧
      Round idOf massOf left (selected.erase (idOf tx)) (taken.erase tx) (current.erase tx) := by
  have inside : tx ∈ taken := round.recent.subset member
  have apart : ∀ other ∈ current.erase tx, idOf other ≠ idOf tx := by
    intro other there same
    have once := round.taken_once
    have split : taken.Perm (tx :: taken.erase tx) := List.perm_cons_erase inside
    rw [(split.map idOf).nodup_iff, List.map_cons, List.nodup_cons] at once
    refine once.1 (same ▸ List.mem_map_of_mem ?_)
    exact (round.recent.erase tx).subset there
  refine ⟨List.perm_cons_erase inside, round.masses, ?_, round.recent.erase tx, fun other there => ?_⟩
  · refine round.once.sublist (List.Sublist.map idOf ?_)
    exact List.Sublist.append_left List.erase_sublist _
  · obtain ⟨key, found, same⟩ := round.known other (List.mem_of_mem_erase there)
    refine ⟨key, ?_, same⟩
    rw [Map.lookup_erase_eq, if_neg (apart other there), found]

end Round

theorem lookup_collectById {keys : List FeerateTransactionKey}
    (once : (keys.map fun key => idOf key.tx).Nodup) {key : FeerateTransactionKey} (member : key ∈ keys) :
    (collectById idOf keys).lookup (idOf key.tx) = some key := by
  have last : Map.written (keys.map fun key => (idOf key.tx, key)) (idOf key.tx) = some key := by
    refine Map.written_eq_some (List.mem_map.mpr ⟨key, member, rfl⟩) fun other there => ?_
    obtain ⟨other', inside, same⟩ := List.mem_map.mp there
    obtain ⟨ids, rfl⟩ := Prod.mk.inj same
    exact List.inj_on_of_nodup_map once inside member ids
  rw [collectById, Map.lookup_putMany, last]
  rfl

theorem Round.next {left left' picked : List FeerateTransactionKey}
    {selected : Map TransactionId FeerateTransactionKey} {taken current : List Transaction}
    (round : Round idOf massOf left selected taken current) (apart : (left' ++ picked).Subperm left) :
    Round idOf massOf left' (collectById idOf picked) (picked.map FeerateTransactionKey.tx ++ taken)
      (picked.map FeerateTransactionKey.tx) := by
  have once : (((left'.map FeerateTransactionKey.tx) ++
      (picked.map FeerateTransactionKey.tx ++ taken)).map idOf).Nodup := by
    obtain ⟨middle, same, sub⟩ := apart
    have fewer := (sub.map FeerateTransactionKey.tx).append_right taken
    have equal := (same.map FeerateTransactionKey.tx).append_right taken
    rw [List.map_append, List.append_assoc] at equal
    exact ((equal.map idOf).nodup_iff).mp (round.once.sublist (fewer.map idOf))
  refine ⟨fun key member => round.masses key (apart.subset (List.mem_append_left _ member)), once,
    (List.sublist_append_left _ _).subperm, fun tx member => ?_⟩
  obtain ⟨key, inside, rfl⟩ := List.mem_map.mp member
  refine ⟨key, lookup_collectById ?_ inside, rfl, round.masses key (apart.subset (List.mem_append_right _ inside))⟩
  have ids : (picked.map FeerateTransactionKey.tx).map idOf = picked.map fun key => idOf key.tx := by
    rw [List.map_map]
    rfl
  rw [← ids]
  rw [List.map_append, List.map_append] at once
  exact once.of_append_right.of_append_left

/-! ## In a given order -/

namespace SequenceSelector

/-- What is not selected yet. -/
def left (s : SequenceSelector) : List (Nat × FeerateTransactionKey) :=
  s.inputSequence.filter fun entry => entry.1 ∉ s.selectedVec.map Prod.fst

structure Ok (idOf : Transaction → TransactionId) (massOf : Transaction → Nat) (policy : Policy)
    (s : SequenceSelector) (taken current : List Transaction) : Prop where
  policy_eq : s.policy = policy
  ledger : Ledger massOf policy s.totalSelectedMass s.lanes taken
  round : Round idOf massOf (s.left.map Prod.snd)
    (s.selectedMap.getD (collectById idOf (s.selectedVec.map Prod.snd))) taken current

variable {s : SequenceSelector} {taken current : List Transaction} {tx : Transaction}

theorem Ok.reject (ok : s.Ok idOf massOf policy taken current) (member : tx ∈ current) :
    ∃ s', s.rejectSelection idOf (idOf tx) = some s' ∧
      s'.Ok idOf massOf policy (taken.erase tx) (current.erase tx) := by
  obtain ⟨split, round⟩ := ok.round.reject member
  obtain ⟨lanes, rejected, -, ledger⟩ := (ok.ledger.perm split).drop
  obtain ⟨key, found, rfl, mass⟩ := ok.round.known tx member
  rw [← mass] at ledger
  have back : s.rejectSelection idOf (idOf key.tx) =
      some { s with selectedMap := some ((s.selectedMap.getD
                      (collectById idOf (s.selectedVec.map Prod.snd))).erase (idOf key.tx)),
                    lanes, totalSelectedMass := s.totalSelectedMass - key.mass } := by
    simp only [rejectSelection, found, rejected, Option.map_some]
  exact ⟨_, back, ok.policy_eq, ledger, round⟩

theorem visit_cases (s : SequenceSelector) (entry : Nat × FeerateTransactionKey) :
    s.visit entry = s ∨ ∃ lanes, s.totalSelectedMass + entry.2.mass ≤ s.policy.maxBlockMass ∧
      s.lanes.trySelect s.policy entry.2.tx.subnetworkId entry.2.tx.gas.toNat = some lanes ∧
      s.visit entry = { s with lanes, totalSelectedMass := s.totalSelectedMass + entry.2.mass,
                               selectedVec := s.selectedVec ++ [entry] } := by
  have room := s.policy.massFits
  unfold visit
  split
  · exact .inl rfl
  next light =>
    rw [not_lt, saturatingAdd] at light
    cases tried : s.lanes.trySelect s.policy entry.2.tx.subnetworkId entry.2.tx.gas.toNat with
    | none => exact .inl rfl
    | some lanes => exact .inr ⟨lanes, by omega, rfl, rfl⟩

theorem foldl_visit {rest : List (Nat × FeerateTransactionKey)}
    (masses : ∀ entry ∈ rest, entry.2.mass = massOf entry.2.tx)
    (ledger : Ledger massOf s.policy s.totalSelectedMass s.lanes taken) :
    ∃ picked, picked.Sublist rest ∧ (rest.foldl visit s).selectedVec = s.selectedVec ++ picked ∧
      (rest.foldl visit s).inputSequence = s.inputSequence ∧
      (rest.foldl visit s).selectedMap = s.selectedMap ∧ (rest.foldl visit s).policy = s.policy ∧
      Ledger massOf s.policy (rest.foldl visit s).totalSelectedMass (rest.foldl visit s).lanes
        (picked.map (fun entry => entry.2.tx) ++ taken) := by
  induction rest generalizing s taken with
  | nil => exact ⟨[], .slnil, (List.append_nil _).symm, rfl, rfl, rfl, ledger⟩
  | cons entry rest ih =>
    obtain ⟨mass, masses⟩ := List.forall_mem_cons.mp masses
    rw [List.foldl_cons]
    rcases s.visit_cases entry with same | ⟨lanes, fits, tried, picks⟩
    · rw [same]
      obtain ⟨picked, sub, kept⟩ := ih masses ledger
      exact ⟨picked, sub.cons entry, kept⟩
    · rw [picks]
      rw [mass] at fits ⊢
      obtain ⟨picked, sub, chosen, input, map, policy, ledger⟩ :=
        ih (s := { s with lanes, totalSelectedMass := s.totalSelectedMass + massOf entry.2.tx,
                          selectedVec := s.selectedVec ++ [entry] }) masses (ledger.add fits tried)
      refine ⟨entry :: picked, sub.cons_cons entry, ?_, input, map, policy, ledger.perm List.perm_middle⟩
      rw [chosen, List.append_assoc]
      rfl

theorem Ok.select (ok : s.Ok idOf massOf policy taken current) :
    s.selectTransactions.1.Ok idOf massOf policy (s.selectTransactions.2 ++ taken) s.selectTransactions.2 := by
  obtain ⟨rfl, ledger, round⟩ := ok
  have masses : ∀ entry ∈ s.left, entry.2.mass = massOf entry.2.tx := fun entry member =>
    round.masses entry.2 (List.mem_map_of_mem member)
  obtain ⟨picked, sub, chosen, input, map, policy, ledger⟩ :=
    foldl_visit (s := { s with inputSequence := s.left, selectedVec := [], selectedMap := none }) masses ledger
  rw [List.nil_append] at chosen
  have batch : s.selectTransactions.2 = picked.map fun entry => entry.2.tx :=
    congrArg (List.map fun entry : Nat × FeerateTransactionKey => entry.2.tx) chosen
  rw [batch]
  have entries : (s.left.map fun entry => idOf entry.2.tx).Nodup := by
    have once := round.once
    rw [List.map_append, List.map_map, List.map_map] at once
    exact once.of_append_left
  have apart : (s.selectTransactions.1.left ++ picked).Subperm s.left := by
    have left : s.selectTransactions.1.left = s.left.filter fun entry => entry.1 ∉ picked.map Prod.fst := by
      rw [left, ← chosen]
      exact congrArg (List.filter _) input
    rw [left]
    have once := List.Nodup.of_map _ entries
    refine List.subperm_of_subset ?_ ?_
    · refine List.nodup_append.mpr ⟨once.filter _, once.sublist sub, fun entry there other member same => ?_⟩
      have out := (List.mem_filter.mp there).2
      exact (of_decide_eq_true out) (same ▸ List.mem_map_of_mem member)
    · exact List.append_subset.mpr ⟨fun entry there => (List.mem_filter.mp there).1, sub.subset⟩
  refine ⟨policy, ledger, ?_⟩
  have keys : (s.selectTransactions.1.left.map Prod.snd ++ picked.map Prod.snd).Subperm (s.left.map Prod.snd) := by
    obtain ⟨middle, same, fewer⟩ := apart
    rw [← List.map_append]
    exact ⟨middle.map Prod.snd, same.map Prod.snd, fewer.map Prod.snd⟩
  have next := round.next keys
  rw [List.map_map] at next
  have known : s.selectTransactions.1.selectedMap.getD
      (collectById idOf (s.selectTransactions.1.selectedVec.map Prod.snd)) =
      collectById idOf (picked.map Prod.snd) := by
    rw [← chosen]
    exact congrArg (Option.getD · _) map
  rw [known]
  exact next

end SequenceSelector

/-! ## By weighted draws -/

namespace MutatingTreeSelector

structure Ok (idOf : Transaction → TransactionId) (massOf : Transaction → Nat) (policy : Policy)
    (s : MutatingTreeSelector) (taken current : List Transaction) : Prop where
  policy_eq : s.policy = policy
  ledger : ∃ used, used + s.gap = policy.maxBlockMass ∧ Ledger massOf policy used s.lanes taken
  round : Round idOf massOf (s.tree ++ s.massDeferred)
    (s.selectedMap.getD (collectById idOf s.selectedVec)) taken current

variable {s : MutatingTreeSelector} {taken current : List Transaction} {tx : Transaction}

theorem Ok.reject (ok : s.Ok idOf massOf policy taken current) (member : tx ∈ current) :
    ∃ s', s.rejectSelection idOf (idOf tx) = some s' ∧
      s'.Ok idOf massOf policy (taken.erase tx) (current.erase tx) := by
  obtain ⟨split, round⟩ := ok.round.reject member
  obtain ⟨used, whole, ledger⟩ := ok.ledger
  obtain ⟨lanes, rejected, counted, ledger⟩ := (ledger.perm split).drop
  obtain ⟨key, found, rfl, mass⟩ := ok.round.known tx member
  have ledger' : ∃ used', used' + (s.gap + key.mass) = policy.maxBlockMass ∧
      Ledger massOf policy used' lanes (taken.erase key.tx) := ⟨_, by omega, ledger⟩
  cases there : s.selectedMap with
  | none =>
    rw [there] at found round
    refine ⟨{ s with selectedVec := [], lanes, gap := s.gap + key.mass,
                     selectedMap := some ((collectById idOf s.selectedVec).erase (idOf key.tx)) },
      ?_, ok.policy_eq, ledger', round⟩
    simp only [rejectSelection, there]
    simp only [Option.getD_none] at found
    simp only [found, rejected, Option.map_some]
  | some selected =>
    rw [there] at found round
    refine ⟨{ s with lanes, gap := s.gap + key.mass, selectedMap := some (selected.erase (idOf key.tx)) },
      ?_, ok.policy_eq, ledger', round⟩
    simp only [rejectSelection, there]
    simp only [Option.getD_some] at found
    simp only [found, rejected, Option.map_some]

theorem visit_cases (s : MutatingTreeSelector) (candidate : FeerateTransactionKey) :
    s.visit candidate = { s with massDeferred := s.massDeferred ++ [candidate] } ∨ s.visit candidate = s ∨
      ∃ lanes, candidate.mass ≤ s.gap ∧
        s.lanes.trySelect s.policy candidate.tx.subnetworkId candidate.tx.gas.toNat = some lanes ∧
        s.visit candidate =
          { s with lanes, gap := s.gap - candidate.mass, selectedVec := s.selectedVec ++ [candidate] } := by
  unfold visit
  split
  · exact .inl rfl
  next light =>
    cases tried : s.lanes.trySelect s.policy candidate.tx.subnetworkId candidate.tx.gas.toNat with
    | none => exact .inr (.inl rfl)
    | some lanes => exact .inr (.inr ⟨lanes, by omega, rfl, rfl⟩)

theorem visit_tree (s : MutatingTreeSelector) (candidate : FeerateTransactionKey) :
    (s.visit candidate).tree = s.tree := by
  rcases s.visit_cases candidate with same | same | ⟨lanes, -, -, same⟩ <;> rw [same]

/-- A round picks some of what was left; the rest is left, put back or dropped. -/
structure Drawn (massOf : Transaction → Nat) (taken : List Transaction) (s s' : MutatingTreeSelector)
    (picked : List FeerateTransactionKey) : Prop where
  vec : s'.selectedVec = s.selectedVec ++ picked
  map : s'.selectedMap = s.selectedMap
  policy : s'.policy = s.policy
  apart : ((s'.tree ++ s'.massDeferred) ++ picked).Subperm (s.tree ++ s.massDeferred)
  ledger : ∃ used, used + s'.gap = s'.policy.maxBlockMass ∧
    Ledger massOf s'.policy used s'.lanes (picked.map FeerateTransactionKey.tx ++ taken)

namespace Drawn

variable {s' s'' : MutatingTreeSelector} {picked picked' : List FeerateTransactionKey}

theorem refl (ledger : ∃ used, used + s.gap = s.policy.maxBlockMass ∧ Ledger massOf s.policy used s.lanes taken) :
    Drawn massOf taken s s [] :=
  ⟨(List.append_nil _).symm, rfl, rfl, by rw [List.append_nil], ledger⟩

theorem trans (first : Drawn massOf taken s s' picked)
    (second : Drawn massOf (picked.map FeerateTransactionKey.tx ++ taken) s' s'' picked') :
    Drawn massOf taken s s'' (picked ++ picked') := by
  refine ⟨?_, second.map.trans first.map, second.policy.trans first.policy, ?_, ?_⟩
  · rw [second.vec, first.vec, List.append_assoc]
  · have swap : ((s''.tree ++ s''.massDeferred) ++ (picked ++ picked')).Perm
        (((s''.tree ++ s''.massDeferred) ++ picked') ++ picked) := by
      rw [List.append_assoc _ picked' picked]
      exact List.perm_append_comm.append_left _
    exact swap.subperm.trans (((List.subperm_append_right picked).mpr second.apart).trans first.apart)
  · obtain ⟨used, whole, ledger⟩ := second.ledger
    refine ⟨used, whole, ledger.perm ?_⟩
    rw [List.map_append, List.append_assoc]
    exact (List.perm_append_comm_assoc _ _ _)

end Drawn

theorem visit_drawn {candidate : FeerateTransactionKey} {rest : List FeerateTransactionKey}
    (mass : candidate.mass = massOf candidate.tx) (split : s.tree.Perm (candidate :: rest))
    (ledger : ∃ used, used + s.gap = s.policy.maxBlockMass ∧ Ledger massOf s.policy used s.lanes taken) :
    ∃ picked, Drawn massOf taken s (visit { s with tree := rest } candidate) picked := by
  have whole := (split.append_right s.massDeferred).symm
  rcases visit_cases { s with tree := rest } candidate with deferred | dropped | ⟨lanes, fits, tried, picks⟩
  · rw [deferred]
    refine ⟨[], (List.append_nil _).symm, rfl, rfl, ?_, ledger⟩
    rw [List.append_nil]
    have last : (rest ++ (s.massDeferred ++ [candidate])).Perm (candidate :: (rest ++ s.massDeferred)) := by
      rw [← List.append_assoc]
      exact List.perm_append_singleton _ _
    exact (last.trans whole).subperm
  · rw [dropped]
    refine ⟨[], (List.append_nil _).symm, rfl, rfl, ?_, ledger⟩
    rw [List.append_nil]
    exact (List.sublist_cons_self candidate _).subperm.trans whole.subperm
  · rw [picks]
    obtain ⟨used, sum, ledger⟩ := ledger
    refine ⟨[candidate], rfl, rfl, rfl, ?_, used + massOf candidate.tx, ?_, ?_⟩
    · exact ((List.perm_append_singleton _ _).trans whole).subperm
    · change used + massOf candidate.tx + (s.gap - candidate.mass) = s.policy.maxBlockMass
      change candidate.mass ≤ s.gap at fits
      omega
    · exact ledger.add (by change candidate.mass ≤ s.gap at fits; omega) tried

theorem drawLoop_drawn (fuel : Nat) (queries : List Nat) (nulls : Nat)
    (masses : ∀ key ∈ s.tree, key.mass = massOf key.tx)
    (ledger : ∃ used, used + s.gap = s.policy.maxBlockMass ∧ Ledger massOf s.policy used s.lanes taken) :
    ∃ picked, Drawn massOf taken s (drawLoop fuel queries nulls s) picked := by
  induction fuel generalizing s taken queries nulls with
  | zero => exact ⟨[], .refl ledger⟩
  | succ fuel ih =>
    rw [drawLoop]
    split
    · dsimp only
      split
      · exact ⟨[], .refl ledger⟩
      next candidate there =>
        obtain ⟨inside, rfl⟩ := List.getElem?_eq_some_iff.mp there
        have split := (List.getElem_cons_eraseIdx_perm inside).symm
        obtain ⟨picked, first⟩ := visit_drawn (masses _ (List.getElem_mem inside)) split ledger
        have masses' : ∀ key ∈ (visit { s with tree := s.tree.eraseIdx (queries.headD 0 % s.tree.length) }
            s.tree[queries.headD 0 % s.tree.length]).tree, key.mass = massOf key.tx := by
          rw [visit_tree]
          exact fun key member => masses key (List.mem_of_mem_eraseIdx member)
        obtain ⟨picked', second⟩ := ih queries.tail _ masses' first.ledger
        exact ⟨picked ++ picked', first.trans second⟩
    · exact ⟨[], .refl ledger⟩

theorem Ok.select (ok : s.Ok idOf massOf policy taken current) (queries : List Nat) :
    (s.selectTransactions queries).1.Ok idOf massOf policy ((s.selectTransactions queries).2 ++ taken)
      (s.selectTransactions queries).2 := by
  obtain ⟨rfl, ledger, round⟩ := ok
  have restored : (s.tree ++ s.massDeferred.filter fun candidate => candidate.mass ≤ s.gap).Sublist
      (s.tree ++ s.massDeferred) := List.filter_sublist.append_left s.tree
  obtain ⟨picked, drawn⟩ := drawLoop_drawn
    (s := { s with tree := s.tree ++ s.massDeferred.filter fun candidate => candidate.mass ≤ s.gap,
                   massDeferred := [], selectedVec := [], selectedMap := none })
    (s.tree ++ s.massDeferred.filter fun candidate => candidate.mass ≤ s.gap).length
    queries 0 (fun key member => round.masses key (restored.subset member)) ledger
  have chosen : (s.selectTransactions queries).1.selectedVec = picked := drawn.vec
  have batch : (s.selectTransactions queries).2 = picked.map FeerateTransactionKey.tx :=
    congrArg (List.map FeerateTransactionKey.tx) chosen
  have known : (s.selectTransactions queries).1.selectedMap.getD
      (collectById idOf (s.selectTransactions queries).1.selectedVec) = collectById idOf picked := by
    rw [chosen]
    exact congrArg (Option.getD · _) drawn.map
  have apart := drawn.apart
  rw [List.append_nil] at apart
  have kept := drawn.ledger
  rw [drawn.policy] at kept
  rw [batch]
  refine ⟨drawn.policy, kept, ?_⟩
  rw [known]
  exact round.next (apart.trans restored.subperm)

end MutatingTreeSelector

/-! ## All of them -/

theorem takeAll_sublist (policy : Policy) (lanes : LaneSelectionState) (txs : List Transaction) :
    (takeAll policy lanes txs).Sublist txs := by
  induction txs generalizing lanes with
  | nil => exact .slnil
  | cons tx rest ih =>
    rw [takeAll]
    split
    · exact (ih _).cons_cons tx
    · exact (ih _).cons tx

theorem takeAll_lanes {lanes : LaneSelectionState} {txs taken : List Transaction}
    (ok : LanesOk policy lanes taken) : ∃ lanes', LanesOk policy lanes' (takeAll policy lanes txs ++ taken) := by
  induction txs generalizing lanes taken with
  | nil => exact ⟨lanes, ok⟩
  | cons tx rest ih =>
    rw [takeAll]
    split
    next lanes' tried =>
      obtain ⟨lanes'', ok'⟩ := ih (ok.trySelect tried)
      exact ⟨lanes'', ok'.perm List.perm_middle⟩
    · exact ih ok

/-! ## Each selector -/

namespace InnerSelector

/-- What was handed out and not taken back is accounted for. -/
def Ok (idOf : Transaction → TransactionId) (massOf : Transaction → Nat) (policy : Policy) :
    InnerSelector → List Transaction → List Transaction → Prop
  | takeAll policy' txs, taken, current =>
    policy' = policy ∧ current.Subperm taken ∧ ((txs ++ taken).map idOf).Nodup ∧
      WithinLimits massOf policy taken ∧ (txs = [] ∨ taken = [] ∧ (txs.map massOf).sum ≤ policy.maxBlockMass)
  | sequence s, taken, current => s.Ok idOf massOf policy taken current
  | tree s, taken, current => s.Ok idOf massOf policy taken current

variable {inner : InnerSelector} {taken current : List Transaction} {tx : Transaction}

section

variable (ok : inner.Ok idOf massOf policy taken current)

include ok

theorem Ok.within : WithinLimits massOf policy taken := by
  cases inner with
  | takeAll => exact ok.2.2.2.1
  | sequence => exact ok.ledger.within
  | tree =>
    obtain ⟨used, -, ledger⟩ := ok.ledger
    exact ledger.within

theorem Ok.once : (taken.map idOf).Nodup := by
  cases inner with
  | takeAll =>
    have once := ok.2.2.1
    rw [List.map_append] at once
    exact once.of_append_right
  | sequence => exact ok.round.taken_once
  | tree => exact ok.round.taken_once

theorem Ok.select (queries : List Nat) :
    (inner.selectTransactions queries).1.Ok idOf massOf policy ((inner.selectTransactions queries).2 ++ taken)
      (inner.selectTransactions queries).2 := by
  cases inner with
  | takeAll policy' txs =>
    obtain ⟨rfl, -, once, within, fresh⟩ := ok
    have sub := takeAll_sublist policy' ∅ txs
    refine ⟨rfl, (List.sublist_append_left _ _).subperm, ?_, ?_, .inl rfl⟩
    · exact once.sublist ((sub.append_right taken).map idOf)
    · rcases fresh with rfl | ⟨rfl, light⟩
      · exact within
      · obtain ⟨lanes, ok⟩ : ∃ lanes, LanesOk policy' lanes (Mining.takeAll policy' ∅ txs ++ []) :=
          takeAll_lanes LanesOk.nil
        rw [List.append_nil] at ok ⊢
        exact ⟨((sub.map massOf).sum_le_sum fun _ _ => Nat.zero_le _).trans light, ok.few, ok.gas⟩
  | sequence s => exact SequenceSelector.Ok.select ok
  | tree s => exact MutatingTreeSelector.Ok.select ok queries

theorem Ok.reject (member : tx ∈ current) : ∃ inner', inner.rejectSelection idOf (idOf tx) = some inner' ∧
      inner'.Ok idOf massOf policy (taken.erase tx) (current.erase tx) := by
  cases inner with
  | takeAll policy' txs =>
    obtain ⟨rfl, recent, once, within, fresh⟩ := ok
    refine ⟨_, rfl, rfl, recent.erase tx, ?_, within.sublist List.erase_sublist, ?_⟩
    · exact once.sublist ((List.Sublist.append_left List.erase_sublist _).map idOf)
    · rcases fresh with rfl | ⟨rfl, -⟩
      · exact .inl rfl
      · exact absurd (recent.subset member) (List.not_mem_nil)
  | sequence s =>
    obtain ⟨s', back, ok'⟩ := SequenceSelector.Ok.reject ok member
    exact ⟨sequence s', by rw [rejectSelection, back]; rfl, ok'⟩
  | tree s =>
    obtain ⟨s', back, ok'⟩ := MutatingTreeSelector.Ok.reject ok member
    exact ⟨tree s', by rw [rejectSelection, back]; rfl, ok'⟩

end

end InnerSelector

end Marigold.Mining
