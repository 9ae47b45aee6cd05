import Mathlib.Control.Basic
import Mathlib.Logic.Basic
import Mathlib.Order.Defs.Unbundled

/-!
# Procedures that can fail

A procedure changes a state and returns a value or an error. What it changed before an error stays
changed, so what holds after an error is a postcondition of its own. The rules below take a procedure
apart step by step; a call to the outside leaves the caller's own state as it is, and its answer is
only known to be what the outside is known to answer.
-/

namespace Marigold.Lib

def Call (S ε α : Type) : Type := S → Except ε α × S

namespace Call

variable {S T ε ε' α β : Type}

instance : Monad (Call S ε) where
  pure a := fun s => (.ok a, s)
  bind c f := fun s =>
    match c s with
    | (.ok a, s') => f a s'
    | (.error e, s') => (.error e, s')

def fail (e : ε) : Call S ε α := fun s => (.error e, s)

def ofExcept (r : Except ε α) : Call S ε α := fun s => (r, s)

def read (f : S → α) : Call S ε α := fun s => (.ok (f s), s)

def update (f : S → S) : Call S ε Unit := fun s => (.ok (), f s)

/-- `map_err`. -/
def mapError (f : ε → ε') (c : Call S ε α) : Call S ε' α := fun s =>
  match c s with
  | (.ok a, s') => (.ok a, s')
  | (.error e, s') => (.error (f e), s')

variable (c : Call S ε α)

/-- The result as a value, an error included. -/
def attempt : Call S ε' (Except ε α) := fun s => (.ok (c s).1, (c s).2)

/-- A loop over a list that ends at the first error. -/
def forEach (f : β → Call S ε Unit) : List β → Call S ε Unit
  | [] => pure ()
  | b :: rest => f b >>= fun _ => forEach f rest

/-- A procedure of the outside, called by one with a state of its own. -/
def outside : Call (T × S) ε α := fun s => ((c s.2).1, s.1, (c s.2).2)

/-! ## Runs -/

variable {c}

theorem bind_ok {s s' : S} {a : α} (ran : c s = (.ok a, s')) (f : α → Call S ε β) : (c >>= f) s = f a s' := by
  change (match c s with | (.ok a, s') => f a s' | (.error e, s') => (.error e, s')) = _
  rw [ran]

theorem bind_error {s s' : S} {e : ε} (ran : c s = (.error e, s')) (f : α → Call S ε β) :
    (c >>= f) s = (.error e, s') := by
  change (match c s with | (.ok a, s') => f a s' | (.error e, s') => (.error e, s')) = _
  rw [ran]

theorem bind_eq_ok {f : α → Call S ε β} {s s'' : S} {b : β} :
    (c >>= f) s = (.ok b, s'') ↔ ∃ a s', c s = (.ok a, s') ∧ f a s' = (.ok b, s'') := by
  rcases ran : c s with ⟨a | a, s'⟩
  · rw [bind_error ran]
    constructor
    · rintro ⟨⟩
    · rintro ⟨a, s', ⟨⟩, -⟩
  · rw [bind_ok ran]
    constructor
    · exact fun rest => ⟨a, s', rfl, rest⟩
    · rintro ⟨a', s', same, rest⟩
      cases same
      exact rest

/-! ## Pre- and postconditions -/

/-- From a state with `P` the procedure ends with a value and a state related by `Q`, or with an error and a
state with `E`. -/
def Triple (P : S → Prop) (c : Call S ε α) (Q : α → S → Prop) (E : S → Prop) : Prop :=
  ∀ s, P s → (∀ a s', c s = (.ok a, s') → Q a s') ∧ ∀ e s', c s = (.error e, s') → E s'

variable (c)

/-- Every value the procedure can return is as stated. -/
def Ensures (A : α → Prop) : Prop := ∀ s a s', c s = (.ok a, s') → A a

section Rules

variable {P P' E E' : S → Prop} {Q Q' : α → S → Prop} {A : α → Prop} {c : Call S ε α}

theorem Triple.pure {a : α} (holds : ∀ s, P s → Q a s) : Triple P (Pure.pure a : Call S ε α) Q E := by
  intro s before
  refine ⟨fun a' s' ran => ?_, fun e s' ran => by cases ran⟩
  cases ran
  exact holds s before

theorem Triple.read {f : S → α} (holds : ∀ s, P s → Q (f s) s) : Triple P (read f : Call S ε α) Q E := by
  intro s before
  refine ⟨fun a s' ran => ?_, fun e s' ran => by cases ran⟩
  cases ran
  exact holds s before

theorem Triple.update {f : S → S} {Q : Unit → S → Prop} (holds : ∀ s, P s → Q () (f s)) :
    Triple P (update f : Call S ε Unit) Q E := by
  intro s before
  refine ⟨fun a s' ran => ?_, fun e s' ran => by cases ran⟩
  cases ran
  exact holds s before

variable {f : α → Call S ε β}

theorem Triple.bind {R : β → S → Prop} (first : Triple P c Q E)
    (rest : ∀ a, Triple (Q a) (f a) R E) : Triple P (c >>= f) R E := by
  intro s before
  obtain ⟨value, failed⟩ := first s before
  rcases ran : c s with ⟨e | a, s'⟩
  · rw [bind_error ran]
    refine ⟨fun b s'' same => (by cases same), fun e' s'' same => ?_⟩
    cases same
    exact failed e s' ran
  · rw [bind_ok ran]
    exact rest a s' (value a s' ran)

theorem Triple.weaken (triple : Triple P c Q E) (before : ∀ s, P' s → P s) (after : ∀ a s, Q a s → Q' a s)
    (failed : ∀ s, E s → E' s) : Triple P' c Q' E' := fun s start =>
  ⟨fun a s' ran => after a s' ((triple s (before s start)).1 a s' ran),
    fun e s' ran => failed s' ((triple s (before s start)).2 e s' ran)⟩

/-- A call to the outside, of which only the answer is known. -/
theorem Triple.outside {P : T → Prop} (answers : Ensures c A) :
    Triple (fun s : T × S => P s.1) (outside c) (fun a s => P s.1 ∧ A a) fun s => P s.1 := by
  intro s before
  constructor
  · intro a s' ran
    cases ran' : c s.2 with
    | mk result after =>
      simp only [Call.outside, ran', Prod.mk.injEq] at ran
      obtain ⟨rfl, rfl⟩ := ran
      exact ⟨before, answers _ _ _ ran'⟩
  · intro e s' ran
    simp only [Call.outside, Prod.mk.injEq] at ran
    rw [← ran.2]
    exact before

/-- A call whose failure is handled by the caller. -/
theorem Triple.attempt (triple : Triple P c Q E) :
    Triple P (attempt c : Call S ε' (Except ε α)) (fun r s => match r with | .ok a => Q a s | .error _ => E s) E' := by
  intro s before
  obtain ⟨value, failed⟩ := triple s before
  refine ⟨fun r s' ran => ?_, fun e s' ran => by cases ran⟩
  rcases ran' : c s with ⟨e | a, after⟩
  · simp only [Call.attempt, ran', Prod.mk.injEq, Except.ok.injEq] at ran
    obtain ⟨rfl, rfl⟩ := ran
    exact failed e after ran'
  · simp only [Call.attempt, ran', Prod.mk.injEq, Except.ok.injEq] at ran
    obtain ⟨rfl, rfl⟩ := ran
    exact value a after ran'

/-- What holds before holds after, also after an error. -/
def Keeps (P : S → Prop) (c : Call S ε α) : Prop := Triple P c (fun _ => P) P

theorem Keeps.run {s : S} (keeps : Keeps P c) (before : P s) : P (c s).2 := by
  obtain ⟨value, failed⟩ := keeps s before
  rcases ran : c s with ⟨e | a, s'⟩
  · exact failed e s' ran
  · exact value a s' ran

theorem Keeps.pure (a : α) : Keeps P (Pure.pure a : Call S ε α) := Triple.pure fun _ before => before

theorem Keeps.read (f : S → α) : Keeps P (read f : Call S ε α) := Triple.read fun _ before => before

theorem Keeps.update {f : S → S} (holds : ∀ s, P s → P (f s)) : Keeps P (update f : Call S ε Unit) :=
  Triple.update holds

theorem Keeps.bind (first : Keeps P c) (rest : ∀ a, Keeps P (f a)) : Keeps P (c >>= f) := Triple.bind first rest

theorem Keeps.outside {P : T → Prop} (c : Call S ε α) : Keeps (fun s : T × S => P s.1) (outside c) :=
  (Triple.outside (A := fun _ => True) fun _ _ _ _ => trivial).weaken (fun _ before => before)
    (fun _ _ after => after.1) fun _ failed => failed

theorem Keeps.attempt (keeps : Keeps P c) : Keeps P (attempt c : Call S ε' (Except ε α)) :=
  (Triple.attempt keeps).weaken (fun _ before => before) (fun r s after => by cases r <;> exact after)
    fun _ failed => failed

theorem Ensures.mapError (ensures : Ensures c A) (f : ε → ε') : Ensures (c.mapError f) A := by
  intro s a s' ran
  unfold Call.mapError at ran
  split at ran
  next here =>
    cases ran
    exact ensures s a s' here
  · cases ran

theorem Ensures.bind {B : β → Prop} (first : Ensures c A)
    (rest : ∀ a, A a → Ensures (f a) B) : Ensures (c >>= f) B := by
  intro s b s'' ran
  obtain ⟨a, s', ran, then'⟩ := bind_eq_ok.mp ran
  exact rest a (first s a s' ran) s' b s'' then'

theorem Ensures.pure {a : α} (holds : A a) : Ensures (Pure.pure a : Call S ε α) A := by
  intro s a' s' ran
  cases ran
  exact holds

theorem Ensures.fail (e : ε) : Ensures (fail e : Call S ε α) A := fun _ _ _ ran => by cases ran

/-- An answer is one the procedure can give. -/
theorem Ensures.self : Ensures c fun a => ∃ s s', c s = (.ok a, s') := fun s _ s' ran => ⟨s, s', ran⟩

end Rules

/-! ## Weakest preconditions -/

/-- From this state the procedure ends with a value and a state with `Q`, or with an error and a state with
`E`. Unlike a triple it speaks of one state, so the conditions may compare what is with what was. -/
def wp (Q : α → S → Prop) (E : ε → S → Prop) (s : S) : Prop :=
  match c s with
  | (.ok a, s') => Q a s'
  | (.error e, s') => E e s'

section Weakest

variable {Q Q' : α → S → Prop} {E E' : ε → S → Prop} {c : Call S ε α} {s : S}

@[simp] theorem wp_pure {a : α} : wp (Pure.pure a : Call S ε α) Q E s ↔ Q a s := Iff.rfl

@[simp] theorem wp_fail {e : ε} : wp (fail e : Call S ε α) Q E s ↔ E e s := Iff.rfl

@[simp] theorem wp_read {f : S → α} : wp (read f : Call S ε α) Q E s ↔ Q (f s) s := Iff.rfl

@[simp] theorem wp_update {f : S → S} {Q : Unit → S → Prop} : wp (update f : Call S ε Unit) Q E s ↔ Q () (f s) := Iff.rfl

@[simp] theorem wp_ofExcept_ok {a : α} : wp (ofExcept (.ok a) : Call S ε α) Q E s ↔ Q a s := Iff.rfl

@[simp] theorem wp_bind {f : α → Call S ε β} {Q : β → S → Prop} :
    wp (c >>= f) Q E s ↔ wp c (fun a => wp (f a) Q E) E s := by
  rcases ran : c s with ⟨e | a, s'⟩
  · simp only [wp, bind_error ran, ran]
  · simp only [wp, bind_ok ran, ran]

@[simp] theorem wp_outside {c : Call S ε α} {Q : α → T × S → Prop} {E : ε → T × S → Prop} {s : T × S} :
    wp (outside c) Q E s ↔ wp c (fun a s' => Q a (s.1, s')) (fun e s' => E e (s.1, s')) s.2 := by
  rcases ran : c s.2 with ⟨e | a, s'⟩ <;> simp [wp, outside, ran]

theorem wp_mono (first : wp c Q E s) (value : ∀ a s', Q a s' → Q' a s') (failed : ∀ e s', E e s' → E' e s') :
    wp c Q' E' s := by
  unfold wp at first ⊢
  split at first
  · exact value _ _ first
  · exact failed _ _ first

theorem wp_imp (first : wp c Q E s) (value : ∀ a s', Q a s' → Q' a s') : wp c Q' E s :=
  wp_mono first value fun _ _ failed => failed

/-- A call that cannot fail. -/
theorem wp_total (first : wp c Q (fun _ _ => False) s) (value : ∀ a s', Q a s' → Q' a s') : wp c Q' E s :=
  wp_mono first value fun _ _ never => never.elim

theorem wp_const {p : Prop} (holds : p) : wp c (fun _ _ => p) (fun _ _ => p) s := by
  rw [wp]
  split
  · exact holds
  · exact holds

theorem wp_ok {a : α} {s' : S} (meets : wp c Q E s) (ran : c s = (.ok a, s')) : Q a s' := by
  rwa [wp, ran] at meets

theorem wp_and (first : wp c Q E s) (second : wp c Q' E' s) :
    wp c (fun a s' => Q a s' ∧ Q' a s') (fun e s' => E e s' ∧ E' e s') s := by
  unfold wp at first second ⊢
  split
  next ran => exact ⟨by rwa [ran] at first, by rwa [ran] at second⟩
  next ran => exact ⟨by rwa [ran] at first, by rwa [ran] at second⟩

/-- A loop over a list, with an invariant on what is still to be done. -/
theorem wp_forEach {items : List β} {f : β → Call S ε Unit} (Inv : List β → S → Prop)
    (step : ∀ b rest s, Inv (b :: rest) s → wp (f b) (fun _ => Inv rest) E s) (start : Inv items s) :
    wp (forEach f items) (fun _ => Inv []) E s := by
  induction items generalizing s with
  | nil => exact start
  | cons b rest ih =>
    rw [forEach, wp_bind]
    exact wp_imp (step b rest s start) fun _ _ => ih

end Weakest

/-! ## What a procedure keeps -/

/-- The procedure keeps `P`, and fails only with errors in `B`. -/
def Safe (P : S → Prop) (B : ε → Prop) (c : Call S ε α) : Prop :=
  ∀ s, P s → wp c (fun _ => P) (fun e s' => B e ∧ P s') s

namespace Safe

variable {P : S → Prop} {B : ε → Prop} {c : Call S ε α}

theorem pure (a : α) : Safe P B (Pure.pure a : Call S ε α) := fun _ before => before

theorem read (f : S → α) : Safe P B (read f : Call S ε α) := fun _ before => before

theorem fail {e : ε} (allowed : B e) : Safe P B (fail e : Call S ε α) := fun _ before => ⟨allowed, before⟩

theorem ofExcept {r : Except ε α} (allowed : ∀ e, r = .error e → B e) : Safe P B (ofExcept r : Call S ε α) := by
  intro s before
  cases r with
  | ok a => exact before
  | error e => exact ⟨allowed e rfl, before⟩

theorem update {f : S → S} (holds : ∀ s, P s → P (f s)) : Safe P B (update f : Call S ε Unit) := holds

theorem bind {f : α → Call S ε β} (first : Safe P B c) (rest : ∀ a, Safe P B (f a)) : Safe P B (c >>= f) := by
  intro s before
  rw [wp_bind]
  exact wp_imp (first s before) fun a s' => rest a s'

theorem forEach {f : β → Call S ε Unit} {items : List β} (each : ∀ b ∈ items, Safe P B (f b)) :
    Safe P B (forEach f items) := by
  induction items with
  | nil => exact pure ()
  | cons b rest ih =>
    rw [List.forall_mem_cons] at each
    exact bind each.1 fun _ => ih each.2

end Safe

end Call

end Marigold.Lib
