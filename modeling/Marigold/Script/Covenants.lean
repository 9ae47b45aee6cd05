import Marigold.Core.Outcome
import Marigold.Core.TxCodes
import Marigold.Lib.Map

/-!
# Covenants of a transaction

`hashing/covenant_id.rs` and `from_tx` of `txscript/src/covenants.rs`. An output that carries a covenant id names an
input that authorizes it. The input carries the id already, or the id commits to the outpoint it spends and to all
outputs with the same id and input.
-/

namespace Marigold.Script

open Lib Transaction Outcome

/-! ## Covenant ids -/

def covenantIdBytes (outpoint : TransactionOutpoint) (authOutputs : List (UInt32 × TransactionOutput)) : Bytes :=
  writeOutpoint outpoint ++ writeLen authOutputs.length ++
    authOutputs.flatMap fun entry => u32LE entry.1 ++ u64LE entry.2.value ++ writeScriptPublicKey entry.2.scriptPublicKey

def covenantId (H : Bytes → Hash) (outpoint : TransactionOutpoint) (authOutputs : List (UInt32 × TransactionOutput)) :
    Hash :=
  H (covenantIdBytes outpoint authOutputs)

theorem outpoint_eq_of_covenantIdBytes {o o' : TransactionOutpoint} {outputs outputs' : List (UInt32 × TransactionOutput)}
    (same : covenantIdBytes o outputs = covenantIdBytes o' outputs') : o = o' := by
  rw [covenantIdBytes, covenantIdBytes, List.append_assoc, List.append_assoc] at same
  exact (delimits_outpoint trivial trivial same).1

/-! ## `from_tx` -/

inductive CovenantsError where
  | authInputOutOfBounds (output : Nat) (authorizingInput : UInt16)
  | wrongGenesisCovenantId (authInput : Nat) (covenantId : Hash)
  deriving DecidableEq

structure CovenantSharedContext where
  inputIndices : List Nat
  outputIndices : List Nat

structure CovenantsContext where
  /-- The outputs an input authorizes. -/
  inputCtxs : Map Nat (List Nat)
  sharedCtxs : Map Hash CovenantSharedContext

/-- The contexts so far, and the outputs to check for each authorizing input and new id. -/
structure CovenantGroups where
  ctx : CovenantsContext
  genesis : Map (Nat × Hash) (List Nat)

/-- `entry(key).or_default().push(i)`. -/
def pushAt {K : Type} [DecidableEq K] (m : Map K (List Nat)) (key : K) (i : Nat) : Map K (List Nat) :=
  m.insert key ((m.lookup key).getD [] ++ [i])

/-- The first loop: the inputs that carry an id. -/
def collectInputs (entries : List UtxoEntry) : Map Hash CovenantSharedContext :=
  entries.zipIdx.foldl (fun shared entry =>
    match entry.1.covenantId with
    | none => shared
    | some covenant =>
      let before := (shared.lookup covenant).getD ⟨[], []⟩
      shared.insert covenant { before with inputIndices := before.inputIndices ++ [entry.2] }) ∅

/-- The body of the loop over the outputs. -/
def groupOutput (entries : List UtxoEntry) (acc : CovenantGroups) (item : TransactionOutput × Nat) :
    Outcome CovenantsError CovenantGroups :=
  match item.1.covenant with
  | none => .ok acc
  | some binding =>
    match entries[binding.authorizingInput.toNat]? with
    | none => .reject (.authInputOutOfBounds item.2 binding.authorizingInput)
    | some entry =>
      if entry.covenantId = some binding.covenantId then do
        let shared ← expect (acc.ctx.sharedCtxs.lookup binding.covenantId)
        return { acc with ctx := {
          inputCtxs := pushAt acc.ctx.inputCtxs binding.authorizingInput.toNat item.2
          sharedCtxs := acc.ctx.sharedCtxs.insert binding.covenantId
            { shared with outputIndices := shared.outputIndices ++ [item.2] } } }
      else return { acc with
        genesis := pushAt acc.genesis (binding.authorizingInput.toNat, binding.covenantId) item.2 }

/-- The body of the loop over the new ids. -/
def checkGenesis (H : Bytes → Hash) (tx : Transaction) (key : Nat × Hash) (indices : List Nat) :
    Outcome CovenantsError Unit := do
  let input ← expect tx.inputs[key.1]?
  let outputs ← indices.mapM fun i => do return (UInt32.ofNat i, ← expect tx.outputs[i]?)
  if covenantId H input.previousOutpoint outputs ≠ key.2 then .reject (.wrongGenesisCovenantId key.1 key.2)
  else return ()

def CovenantsContext.fromTx (H : Bytes → Hash) (tx : Transaction) (entries : List UtxoEntry) :
    Outcome CovenantsError CovenantsContext := do
  let groups ← tx.outputs.zipIdx.foldlM (groupOutput entries) ⟨⟨∅, collectInputs entries⟩, ∅⟩
  groups.genesis.entries.forM fun group => checkGenesis H tx group.1 group.2
  return groups.ctx

/-! ## What it checks -/

/-- The outputs bound to an input and an id, with their indices. -/
def boundTo (binding : CovenantBinding) (outputs : List (TransactionOutput × Nat)) : List (TransactionOutput × Nat) :=
  outputs.filter fun item => item.1.covenant = some binding

/-- The outputs that an id has to commit to, if it is new with this input. -/
def covenantGroup (tx : Transaction) (binding : CovenantBinding) : List (UInt32 × TransactionOutput) :=
  (boundTo binding tx.outputs.zipIdx).map fun item => (UInt32.ofNat item.2, item.1)

section Spec

variable {H : Bytes → Hash} {tx : Transaction} {entries : List UtxoEntry} {acc acc' : CovenantGroups}
  {item : TransactionOutput × Nat} {binding : CovenantBinding} {items : List (TransactionOutput × Nat)}

section

variable
  (new : ∀ entry, entries[binding.authorizingInput.toNat]? = some entry → entry.covenantId ≠ some binding.covenantId)

include new

/-- What one output does to the group of a binding whose input does not carry the id. -/
theorem groupOutput_genesis (done : groupOutput entries acc item = .ok acc') :
    (acc'.genesis.lookup (binding.authorizingInput.toNat, binding.covenantId)).getD [] =
      (acc.genesis.lookup (binding.authorizingInput.toNat, binding.covenantId)).getD [] ++
        (boundTo binding [item]).map Prod.snd := by
  rw [groupOutput] at done
  split at done
  next free =>
    cases done
    simp [boundTo, free]
  next other bound =>
    split at done
    · simp [reject] at done
    next entry there =>
      split at done
      next carried =>
        -- this input carries the id, so it is another binding
        obtain ⟨_, -, done⟩ := bind_eq_ok.mp done
        cases done
        have differ : other ≠ binding := by
          rintro rfl
          exact new entry there carried
        simp [boundTo, bound, differ]
      · cases done
        by_cases here : other = binding
        · subst here
          simp [boundTo, bound, pushAt]
        · have differ : (binding.authorizingInput.toNat, binding.covenantId) ≠
              (other.authorizingInput.toNat, other.covenantId) := by
            intro same
            obtain ⟨input, id⟩ := Prod.mk.inj same
            apply here
            cases other
            cases binding
            simp_all [UInt16.toNat_inj]
          simp [boundTo, bound, here, pushAt, differ]

theorem groupOutputs_genesis (done : items.foldlM (groupOutput entries) acc = .ok acc') :
    (acc'.genesis.lookup (binding.authorizingInput.toNat, binding.covenantId)).getD [] =
      (acc.genesis.lookup (binding.authorizingInput.toNat, binding.covenantId)).getD [] ++
        (boundTo binding items).map Prod.snd := by
  induction items generalizing acc with
  | nil =>
    cases done
    simp [boundTo]
  | cons item rest ih =>
    obtain ⟨acc₁, first, done⟩ := foldlM_cons_eq_ok.mp done
    rw [ih done, groupOutput_genesis new first, List.append_assoc, ← List.map_append]
    have split : boundTo binding [item] ++ boundTo binding rest = boundTo binding (item :: rest) := by
      rw [boundTo, boundTo, ← List.filter_append]
      rfl
    rw [split]

end

theorem groupOutputs_inside (done : items.foldlM (groupOutput entries) acc = .ok acc') {item : TransactionOutput × Nat}
    (member : item ∈ items) (bound : item.1.covenant = some binding) :
    ∃ entry, entries[binding.authorizingInput.toNat]? = some entry := by
  induction items generalizing acc with
  | nil => cases member
  | cons first rest ih =>
    obtain ⟨acc₁, here, done⟩ := foldlM_cons_eq_ok.mp done
    rcases List.mem_cons.mp member with rfl | later
    · rw [groupOutput, bound] at here
      simp only at here
      split at here
      · simp [reject] at here
      next entry there => exact ⟨entry, there⟩
    · exact ih done later

theorem mapM_outputs (numbered : ∀ item ∈ items, tx.outputs[item.2]? = some item.1) :
    ((items.map Prod.snd).mapM fun i => do
      return (UInt32.ofNat i, ← (expect tx.outputs[i]? : Outcome CovenantsError _))) =
      .ok (items.map fun item => (UInt32.ofNat item.2, item.1)) := by
  induction items with
  | nil => rfl
  | cons item rest ih =>
    rw [List.forall_mem_cons] at numbered
    rw [List.map_cons, List.mapM_cons, numbered.1]
    simp only [ih numbered.2]
    rfl

theorem checkGenesis_ok {key : Nat × Hash} (numbered : ∀ item ∈ items, tx.outputs[item.2]? = some item.1)
    (done : checkGenesis H tx key (items.map Prod.snd) = .ok ()) : ∃ input, tx.inputs[key.1]? = some input ∧
      covenantId H input.previousOutpoint (items.map fun item => (UInt32.ofNat item.2, item.1)) = key.2 := by
  rw [checkGenesis] at done
  obtain ⟨input, there, done⟩ := bind_eq_ok.mp done
  obtain ⟨outputs, read, done⟩ := bind_eq_ok.mp done
  obtain rfl := Except.ok.inj ((mapM_outputs numbered).symm.trans read)
  refine ⟨input, expect_eq_ok.mp there, ?_⟩
  by_contra differ
  rw [if_pos differ] at done
  cases done

/-- An output with a covenant: its input carries the id, or the id is the one of its group. -/
structure Authorized (H : Bytes → Hash) (tx : Transaction) (entries : List UtxoEntry) (binding : CovenantBinding) :
    Prop where
  entry : ∃ entry, entries[binding.authorizingInput.toNat]? = some entry ∧
    (entry.covenantId = some binding.covenantId ∨ ∃ input, tx.inputs[binding.authorizingInput.toNat]? = some input ∧
      covenantId H input.previousOutpoint (covenantGroup tx binding) = binding.covenantId)

theorem fromTx_authorized {ctx : CovenantsContext} (done : CovenantsContext.fromTx H tx entries = .ok ctx)
    {output : TransactionOutput} (member : output ∈ tx.outputs) (bound : output.covenant = some binding) :
    Authorized H tx entries binding := by
  rw [CovenantsContext.fromTx] at done
  obtain ⟨groups, grouped, done⟩ := bind_eq_ok.mp done
  obtain ⟨_, checked, -⟩ := bind_eq_ok.mp done
  obtain ⟨i, inside, rfl⟩ := List.mem_iff_getElem.mp member
  have numbered : (tx.outputs[i], i) ∈ tx.outputs.zipIdx := List.mk_mem_zipIdx_iff_getElem?.mpr (by simp)
  obtain ⟨entry, there⟩ := groupOutputs_inside grouped numbered bound
  refine ⟨entry, there, or_iff_not_imp_left.mpr fun new => ?_⟩
  have unclaimed : ∀ other, entries[binding.authorizingInput.toNat]? = some other →
      other.covenantId ≠ some binding.covenantId :=
    fun other found => Option.some.inj (there.symm.trans found) ▸ new
  have group := groupOutputs_genesis unclaimed grouped
  simp only [AList.lookup_empty, Option.getD_none, List.nil_append] at group
  have own : (tx.outputs[i], i) ∈ boundTo binding tx.outputs.zipIdx := by simp [boundTo, numbered, bound]
  -- the group is not empty, so it is in the map and was checked
  cases found : groups.genesis.lookup (binding.authorizingInput.toNat, binding.covenantId) with
  | none =>
    rw [found, Option.getD_none] at group
    simp [List.map_eq_nil_iff.mp group.symm] at own
  | some indices =>
    rw [found, Option.getD_some] at group
    have passed := forM_eq_ok checked (Map.lookup_eq_some_iff.mp found)
    simp only [group] at passed
    refine checkGenesis_ok (fun item inGroup => ?_) passed
    exact List.mem_zipIdx_iff_getElem?.mp (List.mem_of_mem_filter inGroup)

end Spec

end Marigold.Script
