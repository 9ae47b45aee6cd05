import Mathlib.Algebra.Group.Nat.Defs
import Mathlib.Data.List.Basic

/-!
# Outcomes

A Rust function returns a value, returns a rule error, or panics: a failed `unwrap`, an index out of
range, an integer overflow (the release profile keeps overflow checks on). The two failures are kept
apart, because a rule error rejects a transaction or a block while a panic takes the node down.
-/

namespace Marigold

/-- A failed `unwrap`, `expect` or index, or an integer overflow. -/
inductive Panic where
  | unwrap
  | overflow
  deriving DecidableEq, Repr

inductive Failure (ε : Type) where
  | panic (cause : Panic)
  | rule (e : ε)
  deriving DecidableEq, Repr

abbrev Outcome (ε α : Type) := Except (Failure ε) α

def saturatingSub (a b : UInt64) : UInt64 := if a < b then 0 else a - b

namespace Outcome

variable {ε ε' α β γ : Type} {x : Except ε α} {b : β} {step : α → β → Except ε α} {a a' : α}
  {bs : List β} {wrap : ε' → ε}

def reject (e : ε) : Outcome ε α := .error (.rule e)

def panicked (cause : Panic) : Outcome ε α := .error (.panic cause)

/-- `?` on a result with another error type. -/
def ofExcept (wrap : ε' → ε) : Except ε' α → Outcome ε α
  | .ok a => .ok a
  | .error e => reject (wrap e)

/-- `map_err`. -/
def mapRule (wrap : ε' → ε) : Outcome ε' α → Outcome ε α
  | .ok a => .ok a
  | .error (.rule e) => reject (wrap e)
  | .error (.panic cause) => panicked cause

/-- `unwrap` on a result: any error panics. -/
def unwrap : Except ε' α → Outcome ε α
  | .ok a => .ok a
  | .error _ => panicked .unwrap

/-- `unwrap` on the result of code that can panic itself. -/
def unwrapRule : Outcome ε' α → Outcome ε α
  | .ok a => .ok a
  | .error (.rule _) => panicked .unwrap
  | .error (.panic cause) => panicked cause

/-- `expect` on an option. -/
def expect : Option α → Outcome ε α
  | some a => .ok a
  | none => panicked .unwrap

/-- Addition of `u64`s, overflow checked. -/
def add (a b : UInt64) : Outcome ε UInt64 :=
  if a.toNat + b.toNat < 2 ^ 64 then .ok (a + b) else panicked .overflow

/-- `filter_map(|x| f(x).ok())`: rule errors drop the item, a panic is a panic of the whole. -/
def filterOk (f : α → Outcome ε β) : List α → Outcome ε' (List β)
  | [] => .ok []
  | x :: xs =>
    match f x with
    | .ok y => do
      let ys ← filterOk f xs
      return y :: ys
    | .error (.rule _) => filterOk f xs
    | .error (.panic cause) => panicked cause

theorem bind_eq_ok {f : α → Except ε β} : (x >>= f) = .ok b ↔ ∃ a, x = .ok a ∧ f a = .ok b := by
  cases x with
  | error e => simp [bind, Except.bind]
  | ok a => simp [bind, Except.bind]

theorem foldlM_cons_eq_ok :
    (b :: bs).foldlM step a = .ok a' ↔ ∃ a₁, step a b = .ok a₁ ∧ bs.foldlM step a₁ = .ok a' := by
  rw [List.foldlM_cons, bind_eq_ok]

theorem eq_ok_getD (returns : x.toOption.isSome) (default : α) : x = .ok (x.toOption.getD default) := by
  cases x with
  | error e => cases returns
  | ok a => rfl

/-- What every iteration of a loop keeps holds after it. -/
theorem foldlM_keeps (P : α → Prop) (keeps : ∀ b ∈ bs, ∀ a a', P a → step a b = .ok a' → P a')
    (start : P a) (done : bs.foldlM step a = .ok a') : P a' := by
  induction bs generalizing a with
  | nil =>
    cases done
    exact start
  | cons b rest ih =>
    rw [List.forall_mem_cons] at keeps
    obtain ⟨a₁, first, done⟩ := foldlM_cons_eq_ok.mp done
    exact ih keeps.2 (keeps.1 a a₁ start first) done

/-- Each iteration of a loop that was not left succeeded. -/
theorem forM_eq_ok {step : α → Except ε Unit} {items : List α} (done : items.forM step = .ok ())
    (member : a ∈ items) : step a = .ok () := by
  induction items with
  | nil => cases member
  | cons first rest ih =>
    obtain ⟨_, here, later⟩ := bind_eq_ok.mp (List.forM_cons.symm.trans done)
    rcases List.mem_cons.mp member with rfl | inRest
    · exact here
    · exact ih later inRest

theorem ofExcept_eq_ok {x : Except ε' α} : ofExcept wrap x = .ok a ↔ x = .ok a := by
  cases x <;> simp [ofExcept, reject]

theorem unwrap_eq_ok {x : Except ε' α} : (unwrap x : Outcome ε α) = .ok a ↔ x = .ok a := by
  cases x <;> simp [unwrap, panicked]

theorem unwrapRule_eq_ok {x : Outcome ε' α} : (unwrapRule x : Outcome ε α) = .ok a ↔ x = .ok a := by
  rcases x with (_ | e) | a <;> simp [unwrapRule, panicked]

theorem expect_eq_ok {x : Option α} : (expect x : Outcome ε α) = .ok a ↔ x = some a := by
  cases x <;> simp [expect, panicked]

theorem mapRule_eq_ok {x : Outcome ε' α} : mapRule wrap x = .ok a ↔ x = .ok a := by
  rcases x with (_ | e) | a <;> simp [mapRule, reject, panicked]

theorem add_eq_ok {a b c : UInt64} : (add a b : Outcome ε UInt64) = .ok c ↔ c.toNat = a.toNat + b.toNat := by
  unfold add
  split
  next fits =>
    simp only [Except.ok.injEq]
    constructor
    · rintro rfl
      rw [UInt64.toNat_add, Nat.mod_eq_of_lt fits]
    · intro sum
      apply UInt64.toNat_inj.mp
      rw [UInt64.toNat_add, Nat.mod_eq_of_lt fits, sum]
  next overflows =>
    simp only [panicked, reduceCtorEq, false_iff]
    intro sum
    exact overflows (sum ▸ c.toNat_lt)

/-- The computation does not panic in this way. -/
def SafeFrom (cause : Panic) (x : Outcome ε α) : Prop := x ≠ panicked cause

section SafeFrom

variable {cause : Panic} {x : Outcome ε α} {f : α → Outcome ε β} {xs : List α} {ys : List β}

theorem safe_ok (a : α) : SafeFrom cause (.ok a : Outcome ε α) := by simp [SafeFrom, panicked]

theorem safe_reject (e : ε) : SafeFrom cause (reject e : Outcome ε α) := by
  simp [SafeFrom, reject, panicked]

theorem safe_bind (first : SafeFrom cause x) (second : ∀ a, x = .ok a → SafeFrom cause (f a)) :
    SafeFrom cause (x >>= f) := by
  rcases x with (other | e) | a
  · intro here
    obtain rfl : other = cause := Failure.panic.inj (Except.error.inj here)
    exact first rfl
  · exact safe_reject e
  · exact second a rfl

theorem safe_of_bind (safe : SafeFrom cause (x >>= f)) : SafeFrom cause x := by
  rintro rfl
  exact safe rfl

theorem safe_ofExcept (wrap : ε' → ε) (x : Except ε' α) : SafeFrom cause (ofExcept wrap x) := by
  cases x with
  | ok a => exact safe_ok a
  | error e => exact safe_reject (wrap e)

theorem safe_mapRule {wrap : ε' → ε} {x : Outcome ε' α} (safe : SafeFrom cause x) :
    SafeFrom cause (mapRule wrap x) := by
  rcases x with (other | e) | a
  · simpa [SafeFrom, mapRule, panicked] using safe
  · exact safe_reject (wrap e)
  · exact safe_ok a

theorem safe_add {a b : UInt64} (fits : cause = .overflow → a.toNat + b.toNat < 2 ^ 64) :
    SafeFrom cause (add a b : Outcome ε UInt64) := by
  unfold add
  split_ifs with inside
  · exact safe_ok _
  · intro here
    have overflow : cause = .overflow := by simpa [panicked, eq_comm] using here
    exact inside (fits overflow)

theorem filterOk_eq_ok : (filterOk f xs : Outcome ε' (List β)) = .ok ys ↔
      (∀ x ∈ xs, ∀ cause, SafeFrom cause (f x)) ∧ ys = xs.filterMap fun x => (f x).toOption := by
  induction xs generalizing ys with
  | nil => simp [filterOk, eq_comm]
  | cons x rest ih =>
    rw [List.forall_mem_cons, List.filterMap_cons]
    rcases run : f x with (cause | e) | y
    · simp [filterOk, run, SafeFrom, panicked]
    · simp only [filterOk, run, ih, Except.toOption]
      have safe : ∀ cause, SafeFrom cause (.error (.rule e) : Outcome ε β) := fun _ => safe_reject e
      simp [safe]
    · simp only [filterOk, run, Except.toOption, bind_eq_ok, ih]
      have safe : ∀ cause, SafeFrom cause (.ok y : Outcome ε β) := fun _ => safe_ok y
      simp [safe, pure, Except.pure, eq_comm]

section

variable (done : (filterOk f xs : Outcome ε' (List β)) = .ok ys) (all : xs.length ≤ ys.length)

include done all

theorem filterOk_all : ∀ x ∈ xs, ∃ y, f x = .ok y := by
  obtain ⟨_, rfl⟩ := filterOk_eq_ok.mp done
  have complete := List.filterMap_length_eq_length.mp (Nat.le_antisymm (List.length_filterMap_le _ _) all)
  intro x member
  cases run : f x with
  | error e => simpa [run, Except.toOption] using complete x member
  | ok y => exact ⟨y, rfl⟩

theorem filterOk_map_eq {g : β → γ} {h : α → γ} (sends : ∀ x ∈ xs, ∀ y, f x = .ok y → g y = h x) :
    ys.map g = xs.map h := by
  have results := filterOk_all done all
  obtain rfl := (filterOk_eq_ok.mp done).2
  clear done all
  induction xs with
  | nil => rfl
  | cons x rest ih =>
    rw [List.forall_mem_cons] at results sends
    obtain ⟨y, run⟩ := results.1
    simp only [List.filterMap_cons, run, Except.toOption, List.map_cons, sends.1 y run]
    exact congrArg (List.cons (h x)) (ih sends.2 results.2)

end

theorem filterOk_congr {g : α → Outcome ε β} (same : ∀ x ∈ xs, f x = g x) :
    (filterOk f xs : Outcome ε' (List β)) = filterOk g xs := by
  induction xs with
  | nil => rfl
  | cons x rest ih =>
    rw [List.forall_mem_cons] at same
    simp only [filterOk, same.1, ih same.2]

theorem safe_filterOk (safe : ∀ x ∈ xs, SafeFrom cause (f x)) :
    SafeFrom cause (filterOk f xs : Outcome ε' (List β)) := by
  induction xs with
  | nil => exact safe_ok _
  | cons x rest ih =>
    rw [List.forall_mem_cons] at safe
    rcases run : f x with (other | e) | y
    · have differs : other ≠ cause := fun same => safe.1 (by rw [run, same]; rfl)
      simpa [filterOk, run, SafeFrom, panicked] using differs
    · simpa only [filterOk, run] using ih safe.2
    · simp only [filterOk, run]
      exact safe_bind (ih safe.2) fun _ _ => safe_ok _

/-- A loop does not panic if its body does not, under an invariant on what is still to be done. -/
theorem safe_foldlM {step : α → β → Outcome ε α} (Inv : List β → α → Prop)
    (safe : ∀ b rest a, Inv (b :: rest) a → SafeFrom cause (step a b))
    (keeps : ∀ b rest a a', Inv (b :: rest) a → step a b = .ok a' → Inv rest a')
    (bs : List β) (a : α) (start : Inv bs a) : SafeFrom cause (bs.foldlM step a) := by
  induction bs generalizing a with
  | nil => exact safe_ok a
  | cons b rest ih =>
    rw [List.foldlM_cons]
    exact safe_bind (safe b rest a start) fun a' done => ih a' (keeps b rest a a' start done)

end SafeFrom

/-- Code that reports no rule errors and does not panic returns. -/
theorem ok_of_safe {x : Outcome Empty α} (safe : ∀ cause, SafeFrom cause x) : ∃ a, x = .ok a := by
  rcases x with (cause | e) | a
  · exact absurd rfl (safe cause)
  · exact nomatch e
  · exact ⟨a, rfl⟩

end Outcome

end Marigold
