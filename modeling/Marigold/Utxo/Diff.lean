import Marigold.Core.Outcome
import Marigold.Core.Tx
import Marigold.Lib.Map
import Marigold.Lib.Overlay

/-!
# UTXO diffs and composed views

`consensus/core/src/utxo`: the UTXO side of what a transaction or a block changes. Unlike a note,
an outpoint can come back with another DAA score, so cancelling compares scores.
-/

namespace Marigold.Utxo

open Lib

abbrev UtxoCollection := Map TransactionOutpoint UtxoEntry

structure UtxoDiff where
  add : UtxoCollection
  remove : UtxoCollection

inductive UtxoAlgebraError where
  | duplicateRemovePoint (outpoint : TransactionOutpoint)
  | duplicateAddPoint (outpoint : TransactionOutpoint)
  | doubleRemoveCall (outpoint : TransactionOutpoint)
  | doubleAddCall (outpoint : TransactionOutpoint)
  | diffIntersectionPoint (outpoint : TransactionOutpoint) (message : String)
  | general (message : String)
  deriving DecidableEq, Repr

/-- `UtxoView`: `get` as a function. -/
abbrev UtxoView := TransactionOutpoint → Option UtxoEntry

abbrev Entry := Sigma fun _ : TransactionOutpoint => UtxoEntry

namespace UtxoCollection

def containsWithDaaScore (m : UtxoCollection) (outpoint : TransactionOutpoint) (daaScore : UInt64) : Bool :=
  (m.lookup outpoint).any fun entry => entry.blockDaaScore == daaScore

/-- The first outpoint in both collections that satisfies the rule; the smaller one is iterated. -/
def intersectsWithRule (this other : UtxoCollection)
    (rule : TransactionOutpoint → UtxoEntry → UtxoEntry → Bool) : Option TransactionOutpoint :=
  if this.entries.length ≤ other.entries.length then
    (this.entries.find? fun e => (other.lookup e.1).any fun v => rule e.1 e.2 v).map Sigma.fst
  else
    (other.entries.find? fun e => (this.lookup e.1).any fun v => rule e.1 v e.2).map Sigma.fst

/-- `(this ∩ other, remainder ∪ (this ∖ other))`, with equality also on the DAA score. -/
def intersectionWithRemainder (this other remainder : UtxoCollection) : UtxoCollection × UtxoCollection :=
  this.entries.foldl (fun (acc : UtxoCollection × UtxoCollection) (e : Entry) =>
    if containsWithDaaScore other e.1 e.2.blockDaaScore then (acc.1.insert e.1 e.2, acc.2)
    else (acc.1, acc.2.insert e.1 e.2)) (∅, remainder)

def removeCollection (this other : UtxoCollection) : UtxoCollection :=
  other.entries.foldl (fun m e => m.erase e.1) this

end UtxoCollection

namespace UtxoDiff

def empty : UtxoDiff := ⟨∅, ∅⟩

/-- `as_reversed` and `to_reversed`: added and removed swapped. -/
def reversed (d : UtxoDiff) : UtxoDiff := ⟨d.remove, d.add⟩

/-- The first half of the update: removals cancel additions of the same DAA score. -/
def mergeRemovals (self : UtxoDiff) (removed : UtxoCollection) : UtxoDiff :=
  let split := UtxoCollection.intersectionWithRemainder removed self.add self.remove
  ⟨UtxoCollection.removeCollection self.add split.1, split.2⟩

/-- The second half: additions cancel removals of the same DAA score. -/
def mergeAdditions (self : UtxoDiff) (added : UtxoCollection) : UtxoDiff :=
  let split := UtxoCollection.intersectionWithRemainder added self.remove self.add
  ⟨split.2, UtxoCollection.removeCollection self.remove split.1⟩

/-- The outcome together with the receiver after the call. -/
def withDiffInPlace (self other : UtxoDiff) : Except UtxoAlgebraError Unit × UtxoDiff :=
  match other.remove.intersectsWithRule self.remove fun outpoint entryToAdd _ =>
      !self.add.containsWithDaaScore outpoint entryToAdd.blockDaaScore with
  | some outpoint => (.error (.duplicateRemovePoint outpoint), self)
  | none =>
    match other.add.intersectsWithRule self.add fun outpoint _ existing =>
        !other.remove.containsWithDaaScore outpoint existing.blockDaaScore with
    | some outpoint => (.error (.duplicateAddPoint outpoint), self)
    | none => (.ok (), (self.mergeRemovals other.remove).mergeAdditions other.add)

def removeEntry (d : UtxoDiff) (outpoint : TransactionOutpoint) (entry : UtxoEntry) :
    Except UtxoAlgebraError UtxoDiff :=
  if d.add.containsWithDaaScore outpoint entry.blockDaaScore then
    .ok { d with add := d.add.erase outpoint }
  else if outpoint ∉ d.remove then .ok { d with remove := d.remove.insert outpoint entry }
  else .error (.doubleRemoveCall outpoint)

def addEntry (d : UtxoDiff) (outpoint : TransactionOutpoint) (entry : UtxoEntry) : Except UtxoAlgebraError UtxoDiff :=
  if d.remove.containsWithDaaScore outpoint entry.blockDaaScore then
    .ok { d with remove := d.remove.erase outpoint }
  else if outpoint ∉ d.add then .ok { d with add := d.add.insert outpoint entry }
  else .error (.doubleAddCall outpoint)

end UtxoDiff

/-- `ComposedUtxoView::get`. -/
def composedUtxoView (base : UtxoView) (diff : UtxoDiff) : UtxoView := fun outpoint =>
  match diff.add.lookup outpoint with
  | some entry => some entry
  | none => if outpoint ∈ diff.remove then none else base outpoint

/-- Writing a diff to the stored UTXO set. -/
def UtxoCollection.writeDiff (utxos : UtxoCollection) (diff : UtxoDiff) : UtxoCollection :=
  Map.writeDiff utxos diff.add diff.remove

/-- The entry an output becomes in a block with the given DAA score. -/
def outputEntry (tx : Transaction) (blockDaaScore : UInt64) (output : TransactionOutput) :
    UtxoEntry :=
  ⟨output.value, output.scriptPublicKey, blockDaaScore, tx.isCoinbase, output.covenant.map CovenantBinding.covenantId⟩

/-- The outpoints a transaction creates, with their entries. -/
def createdEntries (H : Hashers) (tx : Transaction) (blockDaaScore : UInt64) : List (TransactionOutpoint × UtxoEntry) :=
  tx.outputs.mapIdx fun i output =>
    (⟨tx.id H, UInt32.ofNat i⟩, outputEntry tx blockDaaScore output)

/-- The outpoints a transaction spends, with the entries it was populated with. -/
def spentEntries (tx : Transaction) (entries : List UtxoEntry) : List (TransactionOutpoint × UtxoEntry) :=
  (tx.inputs.map TransactionInput.previousOutpoint).zip entries

def UtxoDiff.addTransaction (d : UtxoDiff) (H : Hashers) (tx : Transaction)
    (entries : List UtxoEntry) (blockDaaScore : UInt64) : Except UtxoAlgebraError UtxoDiff := do
  let d ← (spentEntries tx entries).foldlM (fun d e => d.removeEntry e.1 e.2) d
  (createdEntries H tx blockDaaScore).foldlM (fun d e => d.addEntry e.1 e.2) d

/-! ## Diffs outpoint by outpoint -/

/-- UTXO diffs take two entries of an outpoint for the same one by their DAA score. -/
def sameDaaScore (a b : UtxoEntry) : Bool := a.blockDaaScore == b.blockDaaScore

theorem sameDaaScore_refl (a : UtxoEntry) : sameDaaScore a a := by simp [sameDaaScore]

namespace UtxoDiff

def cell (d : UtxoDiff) (outpoint : TransactionOutpoint) : Cell UtxoEntry :=
  ⟨d.add.lookup outpoint, d.remove.lookup outpoint⟩

@[simp] theorem cell_reversed (d : UtxoDiff) (outpoint : TransactionOutpoint) :
    d.reversed.cell outpoint = (d.cell outpoint).reverse := rfl

/-- `d` is a diff over `base` that reads as `view`. -/
def Reads (d : UtxoDiff) (base view : UtxoView) : Prop := Represents d.cell base view

private theorem lookup_isNone_iff (m : UtxoCollection) (o : TransactionOutpoint) : (m.lookup o).isNone ↔ o ∉ m := by
  rw [Option.isNone_iff_eq_none, AList.lookup_eq_none]

variable {d d' : UtxoDiff} {o o' : TransactionOutpoint} {entry e : UtxoEntry} {c : Cell UtxoEntry} {H : Hashers}
  {tx : Transaction} {entries : List UtxoEntry} {daaScore : UInt64}

private theorem removeEntry_cell (one : (d.cell o).removeOne sameDaaScore entry = some c) :
    ∃ d', d.removeEntry o entry = .ok d' ∧ ∀ o', d'.cell o' = if o' = o then c else d.cell o' := by
  have contains : d.add.containsWithDaaScore o entry.blockDaaScore = (d.cell o).add.any (sameDaaScore · entry) := rfl
  unfold removeEntry
  rw [contains]
  simp only [Cell.removeOne] at one
  split at one
  next cancels =>
    cases one
    rw [if_pos cancels]
    refine ⟨_, rfl, fun o' => ?_⟩
    by_cases here : o' = o
    · subst here
      simp [cell]
    · simp [cell, here]
  next kept =>
    split at one
    next vacant =>
      cases one
      rw [if_neg kept, if_pos ((lookup_isNone_iff d.remove o).mp vacant)]
      refine ⟨_, rfl, fun o' => ?_⟩
      by_cases here : o' = o
      · subst here
        simp [cell]
      · simp [cell, here]
    · cases one

private theorem addEntry_cell (one : (d.cell o).addOne sameDaaScore entry = some c) :
    ∃ d', d.addEntry o entry = .ok d' ∧ ∀ o', d'.cell o' = if o' = o then c else d.cell o' := by
  -- an addition is a removal with the two sides swapped
  have swapped : (d.reversed.cell o).removeOne sameDaaScore entry = some c.reverse :=
    (Cell.removeOne_reverse _ _ _).trans (congrArg _ one)
  obtain ⟨d', removed, cells⟩ := removeEntry_cell swapped
  refine ⟨d'.reversed, ?_, fun o' => ?_⟩
  · rw [removeEntry, show d.reversed.add = d.remove from rfl, show d.reversed.remove = d.add from rfl] at removed
    unfold addEntry
    split_ifs at removed ⊢ <;> cases removed <;> rfl
  · rw [cell_reversed, cells]
    split_ifs <;> rfl

private theorem removeEntry_added (done : d.removeEntry o entry = .ok d') (added : (d'.cell o').add = some e) :
    (d.cell o').add = some e := by
  unfold removeEntry at done
  split_ifs at done
  · cases done
    simp only [cell, Map.lookup_erase_eq] at added ⊢
    split_ifs at added
    exact added
  · cases done
    exact added

private theorem addEntry_added (done : d.addEntry o entry = .ok d') (added : (d'.cell o').add = some e) :
    (d.cell o').add = some e ∨ (o', e) = (o, entry) := by
  unfold addEntry at done
  split_ifs at done
  · cases done
    exact .inl added
  · cases done
    simp only [cell, Map.lookup_insert_eq] at added ⊢
    split_ifs at added with here
    · exact .inr (Prod.ext here (Option.some.inj added).symm)
    · exact .inl added

theorem addTransaction_added (done : d.addTransaction H tx entries daaScore = .ok d')
    (added : (d'.cell o).add = some e) : (d.cell o).add = some e ∨ (o, e) ∈ createdEntries H tx daaScore := by
  obtain ⟨d₁, removed, created⟩ := Outcome.bind_eq_ok.mp done
  have removes :=
    Outcome.foldlM_keeps (fun d₁ : UtxoDiff => (d₁.cell o).add = some e → (d.cell o).add = some e)
      (fun _ _ _ _ before step there => before (removeEntry_added step there)) (fun there => there) removed
  refine Outcome.foldlM_keeps
    (fun d' : UtxoDiff => (d'.cell o).add = some e → (d.cell o).add = some e ∨ (o, e) ∈ createdEntries H tx daaScore)
    (fun p member _ _ before step there => ?_) (fun there => .inl (removes there)) created added
  rcases addEntry_added step there with old | new
  · exact before old
  · exact .inr (new ▸ member)

theorem addTransaction_adds (done : d.addTransaction H tx entries daaScore = .ok d') (adds : (d'.cell o).add.isSome) :
    (d.cell o).add.isSome ∨ o ∈ (createdEntries H tx daaScore).map Prod.fst := by
  obtain ⟨e, added⟩ := Option.isSome_iff_exists.mp adds
  rcases addTransaction_added done added with old | created
  · exact .inl (old ▸ rfl)
  · exact .inr (List.mem_map_of_mem created)

section Reading

variable {d : UtxoDiff} {base view : UtxoView} {o : TransactionOutpoint} {entry : UtxoEntry}

theorem removeEntry_reads (reads : d.Reads base view) (there : view o = some entry) :
    ∃ d', d.removeEntry o entry = .ok d' ∧ d'.Reads base (Function.update view o none) := by
  obtain ⟨d', removed, cells⟩ := removeEntry_cell
    (Cell.removeOne_eq (sameDaaScore_refl entry) ((reads o).2.trans there))
  exact ⟨d', removed, reads.removeAt sameDaaScore (sameDaaScore_refl entry) there cells⟩

theorem addEntry_reads (reads : d.Reads base view) (absent : view o = none)
    (faithful : ∀ old, base o = some old → sameDaaScore old entry → old = entry) :
    ∃ d', d.addEntry o entry = .ok d' ∧ d'.Reads base (Function.update view o (some entry)) := by
  obtain ⟨d', added, cells⟩ := addEntry_cell (Cell.addOne_eq ((reads o).2.trans absent))
  exact ⟨d', added, reads.addAt sameDaaScore absent faithful cells⟩

/-- The view after a transaction: its inputs spent, its outputs created. -/
def applyTransaction (view : UtxoView) (spent created : List (TransactionOutpoint × UtxoEntry)) :
    UtxoView := addAll (removeAll view (spent.map Prod.fst)) created

/-- Adding a transaction succeeds when its inputs are there, its outputs are not, and no output
could be taken for another entry of the base. -/
theorem addTransaction_reads {H : Hashers} {tx : Transaction} {entries : List UtxoEntry}
    {daaScore : UInt64} (reads : d.Reads base view) (distinct : ((spentEntries tx entries).map Prod.fst).Nodup)
    (there : ∀ p ∈ spentEntries tx entries, view p.1 = some p.2)
    (fresh : ((createdEntries H tx daaScore).map Prod.fst).Nodup)
    (absent : ∀ p ∈ createdEntries H tx daaScore, removeAll view ((spentEntries tx entries).map Prod.fst) p.1 = none)
    (faithful : ∀ p ∈ createdEntries H tx daaScore, ∀ old, base p.1 = some old → sameDaaScore old p.2 → old = p.2) :
    ∃ d', d.addTransaction H tx entries daaScore = .ok d' ∧
      d'.Reads base (applyTransaction view (spentEntries tx entries) (createdEntries H tx daaScore)) := by
  obtain ⟨d₁, removed, reads₁⟩ := foldlM_removes (spentEntries tx entries)
    (fun (d : UtxoDiff) e => d.removeEntry e.1 e.2) d view reads distinct
    (fun _ _ _ _ reads there => removeEntry_reads reads there) there
  obtain ⟨d₂, added, reads₂⟩ := foldlM_adds (createdEntries H tx daaScore)
    (fun (d : UtxoDiff) e => d.addEntry e.1 e.2) d₁ _ reads₁ fresh
    (fun o entry => ∀ old, base o = some old → sameDaaScore old entry → old = entry)
    (fun _ _ _ _ reads absent faithful => addEntry_reads reads absent faithful) absent faithful
  refine ⟨d₂, ?_, reads₂⟩
  rw [addTransaction, removed]
  exact added

end Reading

end UtxoDiff

theorem composedUtxoView_eq (base : UtxoView) (d : UtxoDiff) (o : TransactionOutpoint) :
    composedUtxoView base d o = (d.cell o).apply (base o) := by
  unfold composedUtxoView UtxoDiff.cell Cell.apply
  cases d.add.lookup o with
  | some entry => rfl
  | none => simp only [AList.lookup_isSome]

theorem UtxoDiff.Reads.composed {base view : UtxoView} {d : UtxoDiff} (reads : d.Reads base view) :
    composedUtxoView base d = view := by
  funext o
  rw [composedUtxoView_eq]
  exact (reads o).2

theorem UtxoCollection.lookup_writeDiff (utxos : UtxoCollection) (d : UtxoDiff) (o : TransactionOutpoint) :
    (utxos.writeDiff d).lookup o = composedUtxoView utxos.lookup d o := by
  rw [composedUtxoView_eq]
  exact Map.lookup_writeDiff utxos d.add d.remove o

end Marigold.Utxo
